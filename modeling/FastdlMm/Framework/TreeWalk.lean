import FastdlMm.Framework.RelativePath
import Mathlib.Data.List.Dedup

namespace FastdlMm

variable {t : Tree}

/-- What reading the directories of a tree gives, in some order. -/
structure Listing (t : Tree) where
  names : Path → List Name
  mem_names : ∀ p n, n ∈ names p ↔ n.Plain ∧ (t.entry (p ++ [n])).isSome
  once : ∀ p, (names p).Nodup
  height : Nat
  le_height : ∀ p, (t.entry p).isSome → p.length ≤ height

def Tree.isFile (t : Tree) (p : Path) : Bool :=
  match t.entry p with
  | some (.file _ _) => true
  | _ => false

theorem Tree.isFile_iff {p : Path} :
    t.isFile p = true ↔ ∃ inode size, t.entry p = some (.file inode size) := by
  unfold Tree.isFile
  split
  · rename_i inode size h
    exact iff_of_true rfl ⟨inode, size, h⟩
  · rename_i hno
    refine iff_of_false Bool.false_ne_true ?_
    intro h
    obtain ⟨inode, size, h⟩ := h
    exact hno inode size h

/-- A name below a real directory leads to a real place, unless it is that of a link. -/
theorem Tree.Real.snoc {p : Path} (h : t.Real p) {n : Name} (hn : n.Plain) {e : Entry}
    (he : t.entry (p ++ [n]) = some e) (hlink : ∀ l, e ≠ .symlink l) : t.Real (p ++ [n]) := by
  refine ⟨⟨e, he, hlink⟩, fun m hm => ?_⟩
  obtain hm | hm := List.mem_append.mp hm
  · exact h.plain m hm
  · rw [List.mem_singleton.mp hm]
    exact hn

namespace Listing

theorem length_le_height {entries : List (Path × Entry)} {e : Path × Entry} (h : e ∈ entries) :
    e.1.length ≤ entries.foldr (fun e height => max e.1.length height) 0 := by
  induction entries with
  | nil => cases h
  | cons first entries ih =>
    obtain rfl | h := List.mem_cons.mp h
    · exact Nat.le_max_left _ _
    · exact le_trans (ih h) (Nat.le_max_right _ _)

/-- The directories of a list of entries as they come up in it. -/
def ofEntries {entries : List (Path × Entry)} {maxLinks : Nat}
    {h : ∀ e ∈ entries, listedEntry entries e.1.dropLast = some .directory} :
    Listing (.ofEntries entries maxLinks h) where
  names p := (entries.filterMap fun e =>
    e.1.getLast?.filter (fun n => decide (e.1 = p ++ [n] ∧ n.Plain))).dedup
  mem_names := by
    intro p n
    show _ ↔ n.Plain ∧ (listedEntry entries (p ++ [n])).isSome
    rw [listedEntry, if_neg (by simp), Option.isSome_map, List.find?_isSome, List.mem_dedup,
      List.mem_filterMap]
    constructor
    · intro h
      obtain ⟨e, he, hlast⟩ := h
      obtain ⟨-, hpath⟩ := Option.filter_eq_some_iff.mp hlast
      obtain ⟨hpath, hplain⟩ := of_decide_eq_true hpath
      exact ⟨hplain, e, he, decide_eq_true hpath⟩
    · intro h
      obtain ⟨hplain, e, he, hpath⟩ := h
      have hpath : e.1 = p ++ [n] := of_decide_eq_true hpath
      refine ⟨e, he, Option.filter_eq_some_iff.mpr ⟨?_, decide_eq_true ⟨hpath, hplain⟩⟩⟩
      rw [hpath, List.getLast?_concat]
  once p := List.nodup_dedup _
  height := entries.foldr (fun e height => max e.1.length height) 0
  le_height := by
    intro p hsome
    have hsome : (listedEntry entries p).isSome := hsome
    unfold listedEntry at hsome
    split_ifs at hsome with htop
    · rw [htop]
      exact Nat.zero_le _
    · rw [Option.isSome_map, List.find?_isSome] at hsome
      obtain ⟨e, he, hpath⟩ := hsome
      rw [← of_decide_eq_true hpath]
      exact length_le_height he

variable (l : Listing t) (enter : Path → Bool)

/-- What a walk finds under one name, if it may enter the directory there. It follows no link. -/
def visit (t : Tree) (enter : Path → Bool) (below : Path → List Path) (p : Path) : List Path :=
  match t.entry p with
  | some .directory => if enter p then below p else []
  | some (.file _ _) => [p]
  | _ => []

/-- The regular files in a directory and below it, as a walk in preorder comes to them. -/
def files : Nat → Path → List Path
  | 0, _ => []
  | depth + 1, p => (l.names p).flatMap fun n => visit t enter (files depth) (p ++ [n])

variable {l enter}

theorem mem_visit {below : Path → List Path} {p q : Path} : q ∈ visit t enter below p ↔
    (t.entry p = some .directory ∧ enter p = true ∧ q ∈ below p) ∨ (t.isFile p = true ∧ q = p) := by
  unfold visit
  split
  · rename_i h
    split_ifs with henter <;> simp [Tree.isFile, h, henter]
  · rename_i h
    simp [Tree.isFile, h]
  · rename_i hdir hfile
    refine iff_of_false List.not_mem_nil ?_
    intro h
    obtain ⟨h, -⟩ | ⟨h, -⟩ := h
    · exact hdir h
    · obtain ⟨inode, size, he⟩ := Tree.isFile_iff.mp h
      exact hfile inode size he

theorem prefix_of_mem_files {depth : Nat} {p q : Path} (h : q ∈ l.files enter depth p) :
    p <+: q := by
  induction depth generalizing p with
  | zero => cases h
  | succ depth ih =>
    obtain ⟨n, -, hvisit⟩ := List.mem_flatMap.mp h
    obtain ⟨-, -, hbelow⟩ | ⟨-, rfl⟩ := mem_visit.mp hvisit
    · exact (List.prefix_append p [n]).trans (ih hbelow)
    · exact List.prefix_append p [n]

/-- The walk comes to a file exactly if it may enter each directory on the way. -/
theorem mem_files {depth : Nat} {p q : Path} (hdepth : l.height < p.length + depth)
    (hp : t.Real p) : q ∈ l.files enter depth p ↔ ∃ n below, q = p ++ n :: below ∧ t.Real q ∧
      t.isFile q = true ∧ ∀ r, r <+: below → r ≠ below → enter (p ++ n :: r) = true := by
  induction depth generalizing p with
  | zero =>
    refine iff_of_false (List.not_mem_nil) ?_
    intro h
    obtain ⟨n, below, rfl, hreal, -⟩ := h
    obtain ⟨e, he, -⟩ := hreal.exists_entry
    have hlen := l.le_height _ (Option.isSome_of_eq_some he)
    rw [List.length_append] at hlen
    omega
  | succ depth ih =>
    have hnext (n : Name) : l.height < (p ++ [n]).length + depth := by
      rw [List.length_append, List.length_singleton]
      omega
    have hcons (n : Name) (r : List Name) : p ++ n :: r = p ++ [n] ++ r := by simp
    rw [files, List.mem_flatMap]
    constructor
    · intro h
      obtain ⟨n, hn, hvisit⟩ := h
      obtain ⟨hplain, -⟩ := (l.mem_names p n).mp hn
      obtain ⟨hdir, henter, hbelow⟩ | ⟨hfile, rfl⟩ := mem_visit.mp hvisit
      · obtain ⟨m, below, rfl, hreal, hfile, hway⟩ :=
          (ih (hnext n) (hp.snoc hplain hdir nofun)).mp hbelow
        refine ⟨n, m :: below, (hcons n _).symm, hreal, hfile, ?_⟩
        intro r hr hne
        rw [hcons]
        cases r with
        | nil => rwa [List.append_nil]
        | cons m' r =>
          obtain ⟨rfl, hrest⟩ := List.cons_prefix_cons.mp hr
          exact hway r hrest fun heq => hne (heq ▸ rfl)
      · obtain ⟨inode, size, he⟩ := Tree.isFile_iff.mp hfile
        refine ⟨n, [], rfl, hp.snoc hplain he nofun, hfile, ?_⟩
        intro r hr hne
        exact absurd (List.prefix_nil.mp hr) hne
    · intro h
      obtain ⟨n, below, rfl, hreal, hfile, hway⟩ := h
      have hfirst : t.Real (p ++ [n]) := hreal.of_prefix ⟨below, (hcons n below).symm⟩
      obtain ⟨e, he, -⟩ := hfirst.exists_entry
      have hn : n ∈ l.names p :=
        (l.mem_names p n).mpr ⟨hfirst.plain n (by simp), Option.isSome_of_eq_some he⟩
      refine ⟨n, hn, mem_visit.mpr ?_⟩
      cases below with
      | nil => exact .inr ⟨hfile, rfl⟩
      | cons m below =>
        have hdir : t.entry (p ++ [n]) = some .directory := by
          rw [hcons] at hreal
          exact hreal.directory
        refine .inl ⟨hdir, hway [] List.nil_prefix (List.cons_ne_nil m below).symm, ?_⟩
        refine (ih (hnext n) hfirst).mpr ⟨m, below, hcons n _, hreal, hfile, ?_⟩
        intro r hr hne
        rw [← hcons]
        exact hway (m :: r) (List.cons_prefix_cons.mpr ⟨rfl, hr⟩) fun heq => hne (List.cons.inj heq).2

/-- A walk that may enter every directory finds every file there is. -/
theorem mem_files_of_enter {depth : Nat} {p q : Path} (hdepth : l.height < p.length + depth)
    (hp : t.Real p) (hdir : t.entry p = some .directory)
    (henter : ∀ q, t.Real q → p <+: q → enter q = true) :
    q ∈ l.files enter depth p ↔ p <+: q ∧ t.Real q ∧ t.isFile q = true := by
  rw [mem_files hdepth hp]
  constructor
  · intro h
    obtain ⟨n, below, rfl, hreal, hfile, -⟩ := h
    exact ⟨List.prefix_append _ _, hreal, hfile⟩
  · intro h
    obtain ⟨⟨below, rfl⟩, hreal, hfile⟩ := h
    cases below with
    | nil =>
      rw [List.append_nil] at hfile
      obtain ⟨inode, size, he⟩ := Tree.isFile_iff.mp hfile
      rw [hdir] at he
      cases he
    | cons n below =>
      refine ⟨n, below, rfl, hreal, hfile, ?_⟩
      intro r hr hne
      have hway : p ++ n :: r <+: p ++ n :: below :=
        List.prefix_append_right_inj p |>.mpr (List.cons_prefix_cons.mpr ⟨rfl, hr⟩)
      exact henter _ (hreal.of_prefix hway) (List.prefix_append _ _)

/-- What lies below different names of one directory is different. -/
theorem snoc_prefix_inj {p q : Path} {n m : Name} (hn : p ++ [n] <+: q) (hm : p ++ [m] <+: q) :
    n = m := by
  have hsame : p ++ [n] = p ++ [m] :=
    (List.prefix_of_prefix_length_le hn hm (by simp)).eq_of_length (by simp)
  exact List.singleton_inj.mp (List.append_cancel_left hsame)

theorem nodup_files (depth : Nat) (p : Path) : (l.files enter depth p).Nodup := by
  induction depth generalizing p with
  | zero => exact List.nodup_nil
  | succ depth ih =>
    rw [files, List.nodup_flatMap]
    constructor
    · intro n _
      unfold visit
      split
      · split_ifs
        · exact ih _
        · exact List.nodup_nil
      · exact List.nodup_singleton _
      · exact List.nodup_nil
    · refine (l.once p).imp ?_
      intro n m hne q hn hm
      have hbelow {n : Name} (h : q ∈ visit t enter (l.files enter depth) (p ++ [n])) :
          p ++ [n] <+: q := by
        obtain ⟨-, -, hq⟩ | ⟨-, rfl⟩ := mem_visit.mp h
        · exact prefix_of_mem_files hq
        · exact List.prefix_rfl
      exact hne (snoc_prefix_inj (hbelow hn) (hbelow hm))

end Listing
end FastdlMm
