import FastdlMm.Framework.Text
import Mathlib.Data.List.Induction
import Mathlib.Logic.Relation

namespace FastdlMm

abbrev Name := Text

/-- An absolute path as its components below `/`. -/
abbrev Path := List Name

/-- The target of a symbolic link. -/
structure Link where
  absolute : Bool
  components : List Name
  deriving DecidableEq

structure Inode where
  device : Nat
  number : Nat
  deriving DecidableEq

inductive Entry where
  | directory
  | file (inode : Inode) (size : Nat)
  | symlink (link : Link)
  | special
  deriving DecidableEq

def Name.Plain (n : Name) : Prop := n ≠ [] ∧ n ≠ ['.'] ∧ n ≠ ['.', '.']

instance (n : Name) : Decidable n.Plain := inferInstanceAs (Decidable (_ ∧ _))

/-- A directory tree at one moment, and how many links its system follows on one path. What exists
lies in a directory. -/
structure Tree where
  entry : Path → Option Entry
  maxLinks : Nat
  top : entry [] = some .directory
  parent : ∀ p n, (entry (p ++ [n])).isSome → entry p = some .directory

/-- What a list of entries says about a path; `/` needs no mention. -/
def listedEntry (entries : List (Path × Entry)) (p : Path) : Option Entry :=
  if p = [] then some .directory else (entries.find? (fun e => e.1 = p)).map Prod.snd

theorem listedEntry_mem {entries : List (Path × Entry)} {p : Path} {e : Entry}
    (h : listedEntry entries p = some e) (hnot : e ≠ .directory) : (p, e) ∈ entries := by
  unfold listedEntry at h
  split_ifs at h
  · exact absurd (Option.some.inj h).symm hnot
  · obtain ⟨x, hx, rfl⟩ := Option.map_eq_some_iff.mp h
    have hpath : x.1 = p := by simpa using List.find?_some hx
    rw [← hpath]
    exact List.mem_of_find?_eq_some hx

/-- The tree of a list that mentions the directory of each of its entries. -/
def Tree.ofEntries (entries : List (Path × Entry)) (maxLinks : Nat)
    (h : ∀ e ∈ entries, listedEntry entries e.1.dropLast = some .directory) : Tree where
  entry := listedEntry entries
  maxLinks := maxLinks
  top := if_pos rfl
  parent := by
    intro p n hsome
    rw [listedEntry, if_neg (by simp), Option.isSome_map] at hsome
    obtain ⟨e, he⟩ := Option.isSome_iff_exists.mp hsome
    have hpath : e.1 = p ++ [n] := by simpa using List.find?_some he
    have hdir := h e (List.mem_of_find?_eq_some he)
    rwa [hpath, List.dropLast_concat] at hdir

/-- Where a path walk stands: a place without links, and the components still to go. -/
abbrev Walker := Path × List Name

/-- One step of a path walk. -/
inductive Step (t : Tree) : Walker → Walker → Prop
  | stay {cur : Path} {n : Name} {rest : List Name} : t.entry cur = some .directory →
      n = [] ∨ n = ['.'] → Step t (cur, n :: rest) (cur, rest)
  | up {cur : Path} {rest : List Name} : t.entry cur = some .directory →
      Step t (cur, ['.', '.'] :: rest) (cur.dropLast, rest)
  | enter {cur : Path} {n : Name} {rest : List Name} {e : Entry} :
      t.entry cur = some .directory → n.Plain → t.entry (cur ++ [n]) = some e →
      (∀ l, e ≠ .symlink l) → Step t (cur, n :: rest) (cur ++ [n], rest)
  | expand {cur : Path} {n : Name} {rest : List Name} {l : Link} :
      t.entry cur = some .directory → n.Plain → t.entry (cur ++ [n]) = some (.symlink l) →
      Step t (cur, n :: rest) (if l.absolute then [] else cur, l.components ++ rest)

/-- The walk leads to a place without links. -/
def Leads (t : Tree) (w : Walker) (p : Path) : Prop := Relation.ReflTransGen (Step t) w (p, [])

inductive WalkError where
  | noEntry
  | notDirectory
  | tooManyLinks
  deriving DecidableEq

/-- A walk up to its first link, which `expand` takes on from. -/
def follow (t : Tree) (expand : Path → List Name → Except WalkError Path) :
    Path → List Name → Except WalkError Path
  | cur, [] => .ok cur
  | cur, n :: rest =>
      if t.entry cur ≠ some .directory then .error .notDirectory
      else if n = [] ∨ n = ['.'] then follow t expand cur rest
      else if n = ['.', '.'] then follow t expand cur.dropLast rest
      else
        match t.entry (cur ++ [n]) with
        | none => .error .noEntry
        | some (.symlink l) => expand (if l.absolute then [] else cur) (l.components ++ rest)
        | some _ => follow t expand (cur ++ [n]) rest

/-- The walk with a budget of links. -/
def walk (t : Tree) : Nat → Path → List Name → Except WalkError Path
  | 0 => follow t (fun _ _ => .error .tooManyLinks)
  | links + 1 => follow t (walk t links)

/-- The place that a path stands for, as `realpath` and `open` find it. -/
def Tree.locate (t : Tree) (p : Path) : Except WalkError Path := walk t t.maxLinks [] p

variable {t : Tree}

theorem follow_sound {expand : Path → List Name → Except WalkError Path}
    (he : ∀ cur rest p, expand cur rest = .ok p → Leads t (cur, rest) p) {rest : List Name}
    {cur p : Path} (h : follow t expand cur rest = .ok p) : Leads t (cur, rest) p := by
  induction rest generalizing cur with
  | nil =>
    cases h
    exact .refl
  | cons n rest ih =>
    unfold follow at h
    split_ifs at h with hdir hdot hup
    · exact .head (.stay (not_not.mp hdir) hdot) (ih h)
    · subst hup
      exact .head (.up (not_not.mp hdir)) (ih h)
    · have hplain : n.Plain := ⟨fun h => hdot (.inl h), fun h => hdot (.inr h), hup⟩
      split at h
      · cases h
      · rename_i l hl
        exact .head (.expand (not_not.mp hdir) hplain hl) (he _ _ _ h)
      · rename_i e hnot hl
        exact .head (.enter (not_not.mp hdir) hplain hl hnot) (ih h)

/-- What a walk finds, the steps lead to. -/
theorem walk_sound {links : Nat} {cur p : Path} {rest : List Name}
    (h : walk t links cur rest = .ok p) : Leads t (cur, rest) p := by
  induction links generalizing cur p rest with
  | zero => exact follow_sound (fun _ _ _ h => by cases h) h
  | succ links ih => exact follow_sound (fun _ _ _ h => ih h) h

/-- What a walk does depends on the budget only at its first link. -/
theorem walk_eq_follow (t : Tree) (links : Nat) : ∃ expand, walk t links = follow t expand ∧
    ∀ cur rest, expand cur rest = .error .tooManyLinks ∨
      ∃ left, expand cur rest = walk t left cur rest := by
  cases links with
  | zero => exact ⟨_, rfl, fun _ _ => .inl rfl⟩
  | succ links => exact ⟨_, rfl, fun _ _ => .inr ⟨links, rfl⟩⟩

/-- A step leaves the result of the walk as it is, unless it spends the last link. -/
theorem walk_step {w w' : Walker} (h : Step t w w') (links : Nat) :
    walk t links w.1 w.2 = .error .tooManyLinks ∨
      ∃ left, walk t links w.1 w.2 = walk t left w'.1 w'.2 := by
  obtain ⟨expand, hwalk, hexpand⟩ := walk_eq_follow t links
  cases h with
  | stay hdir hdot =>
    refine .inr ⟨links, ?_⟩
    rw [hwalk]
    simp only [follow, hdir, ne_eq, not_true_eq_false, if_false, if_pos hdot]
  | up hdir =>
    refine .inr ⟨links, ?_⟩
    rw [hwalk]
    simp [follow, hdir]
  | enter hdir hplain hl hnot =>
    refine .inr ⟨links, ?_⟩
    rw [hwalk]
    obtain ⟨hnil, hdot, hup⟩ := hplain
    simp only [follow, hdir, ne_eq, not_true_eq_false, if_false, hnil, hdot, or_self, hup, hl]
  | expand hdir hplain hl =>
    obtain ⟨hnil, hdot, hup⟩ := hplain
    rw [hwalk]
    simp only [follow, hdir, ne_eq, not_true_eq_false, if_false, hnil, hdot, or_self, hup, hl]
    exact hexpand _ _

/-- A walk misses what the steps lead to only for want of links. -/
theorem walk_complete {w : Walker} {p : Path} (h : Leads t w p) (links : Nat) :
    walk t links w.1 w.2 = .ok p ∨ walk t links w.1 w.2 = .error .tooManyLinks := by
  induction h using Relation.ReflTransGen.head_induction_on generalizing links with
  | refl => exact .inl (by cases links <;> rfl)
  | head hstep _ ih =>
    rcases walk_step hstep links with hmany | ⟨left, heq⟩
    · exact .inr hmany
    · rw [heq]
      exact ih left

theorem Tree.locate_iff {q p : Path} (hmany : t.locate q ≠ .error .tooManyLinks) :
    t.locate q = .ok p ↔ Leads t ([], q) p := by
  constructor
  · exact walk_sound
  · intro h
    exact (walk_complete h t.maxLinks).resolve_right hmany

/-- A place without links: it exists, is itself no link, and its names are plain. -/
structure Tree.Real (t : Tree) (p : Path) : Prop where
  exists_entry : ∃ e, t.entry p = some e ∧ ∀ l, e ≠ .symlink l
  plain : ∀ n ∈ p, Name.Plain n

theorem Tree.real_top (t : Tree) : t.Real [] := ⟨⟨_, t.top, by simp⟩, by simp⟩

theorem Tree.Real.dropLast {p : Path} (h : t.Real p) : t.Real p.dropLast := by
  rcases List.eq_nil_or_concat p with rfl | ⟨q, n, rfl⟩
  · exact t.real_top
  · rw [List.concat_eq_append] at h ⊢
    rw [List.dropLast_concat]
    obtain ⟨e, he, -⟩ := h.exists_entry
    refine ⟨⟨.directory, t.parent q n (by rw [he]; rfl), by simp⟩, fun m hm => ?_⟩
    exact h.plain m (List.mem_append_left _ hm)

theorem Step.real {w w' : Walker} (h : Step t w w') (hr : t.Real w.1) : t.Real w'.1 := by
  cases h with
  | stay => exact hr
  | up => exact hr.dropLast
  | enter hdir hplain hl hnot =>
    refine ⟨⟨_, hl, hnot⟩, fun m hm => ?_⟩
    rcases List.mem_append.mp hm with hm | hm
    · exact hr.plain m hm
    · rw [List.mem_singleton.mp hm]
      exact hplain
  | @expand _ _ _ l =>
    dsimp only
    split_ifs
    · exact t.real_top
    · exact hr

theorem Leads.real {w : Walker} {p : Path} (h : Leads t w p) (hr : t.Real w.1) : t.Real p := by
  induction h using Relation.ReflTransGen.head_induction_on with
  | refl => exact hr
  | head hstep _ ih => exact ih (hstep.real hr)

/-- The components of a path that make a difference to where it leads. -/
def proper (rest : List Name) : List Name := rest.filter (fun n => n ≠ [] ∧ n ≠ ['.'])

/-- The link points, without a step upwards, to a place below the root. -/
def Link.Inside (root : Path) (l : Link) : Prop :=
  ['.', '.'] ∉ l.components ∧ (l.absolute = true → root <+: proper l.components)

/-- Every link that a walk of the path meets lies below the root and points there. -/
def Sheltered (t : Tree) (root path : Path) : Prop :=
  ∀ cur n rest l, Relation.ReflTransGen (Step t) ([], path) (cur, n :: rest) →
    t.entry (cur ++ [n]) = some (.symlink l) → root <+: cur ∧ l.Inside root

theorem Sheltered.of_links {root path : Path} (h : ∀ q l, t.entry q = some (.symlink l) →
    root <+: q.dropLast ∧ l.Inside root) : Sheltered t root path := by
  intro cur n rest l _ hl
  have hlink := h _ l hl
  rwa [List.dropLast_concat] at hlink

theorem proper_append (xs ys : List Name) : proper (xs ++ ys) = proper xs ++ proper ys :=
  List.filter_append ..

theorem proper_cons_plain {n : Name} (h : n.Plain) (rest : List Name) :
    proper (n :: rest) = n :: proper rest :=
  List.filter_cons_of_pos (by simp [h.1, h.2.1])

theorem proper_eq_self {p : Path} (h : ∀ n ∈ p, Name.Plain n) : proper p = p :=
  List.filter_eq_self.mpr fun n hn => by simp [(h n hn).1, (h n hn).2.1]

theorem Tree.directory_of_prefix {q p : Path} (hp : t.entry p = some .directory) (h : q <+: p) :
    t.entry q = some .directory := by
  obtain ⟨s, rfl⟩ := h
  induction s using List.reverseRecOn with
  | nil => simpa using hp
  | append_singleton s n ih =>
    apply ih
    rw [← List.append_assoc] at hp
    exact t.parent _ n (by rw [hp]; rfl)

/-- What the walk of a sheltered path keeps: taken to its end it stays below the root, and it ends
at the root only if that is a directory. -/
structure HeadsBelow (t : Tree) (root : Path) (w : Walker) : Prop where
  onward : ['.', '.'] ∉ w.2
  below : root <+: w.1 ++ proper w.2
  strict : w.1 ++ proper w.2 = root → t.entry root = some .directory

theorem HeadsBelow.step {root path : Path} {w w' : Walker} (h : HeadsBelow t root w)
    (hs : Sheltered t root path) (hw : Relation.ReflTransGen (Step t) ([], path) w)
    (hstep : Step t w w') : HeadsBelow t root w' := by
  obtain ⟨hup, hbelow, hstrict⟩ := h
  cases hstep with
  | @stay cur n rest hdir hdot =>
    have hskip : proper (n :: rest) = proper rest :=
      List.filter_cons_of_neg (by rcases hdot with rfl | rfl <;> simp)
    simp only [hskip] at hbelow hstrict
    exact ⟨fun hmem => hup (List.mem_cons_of_mem _ hmem), hbelow, hstrict⟩
  | up => exact absurd List.mem_cons_self hup
  | @enter cur n rest e hdir hplain hl hnot =>
    have hsame : cur ++ proper (n :: rest) = (cur ++ [n]) ++ proper rest := by
      rw [proper_cons_plain hplain, List.append_assoc, List.singleton_append]
    simp only [hsame] at hbelow hstrict
    exact ⟨fun hmem => hup (List.mem_cons_of_mem _ hmem), hbelow, hstrict⟩
  | @expand cur n rest l hdir hplain hl =>
    obtain ⟨hcur, hnoup, habs⟩ := hs cur n rest l hw hl
    refine ⟨fun hmem => ?_, ?_, fun _ => t.directory_of_prefix hdir hcur⟩
    · rcases List.mem_append.mp hmem with hmem | hmem
      · exact hnoup hmem
      · exact hup (List.mem_cons_of_mem _ hmem)
    · dsimp only
      rw [proper_append]
      split_ifs with ha
      · exact (habs ha).trans (List.prefix_append _ _)
      · exact hcur.trans (List.prefix_append _ _)

/-- A sheltered path below the root leads below the root, unless to a directory. -/
theorem Sheltered.leads {root path p : Path} (hs : Sheltered t root path)
    (hplain : ∀ n ∈ path, Name.Plain n) (hbelow : root <+: path) (hne : path ≠ root)
    (h : Leads t ([], path) p) : root <+: p ∧ (t.entry p ≠ some .directory → p ≠ root) := by
  have hall : ∀ w, Relation.ReflTransGen (Step t) ([], path) w → HeadsBelow t root w := by
    intro w hw
    induction hw with
    | refl =>
      have hself : [] ++ proper path = path := proper_eq_self hplain
      refine ⟨fun hmem => (hplain _ hmem).2.2 rfl, hself.symm ▸ hbelow, fun heq => ?_⟩
      rw [hself] at heq
      exact absurd heq hne
    | tail hw hstep ih => exact ih.step hs hw hstep
  obtain ⟨_, hb, hstrict⟩ := hall (p, []) h
  have hend : p ++ proper [] = p := List.append_nil p
  rw [hend] at hb hstrict
  refine ⟨hb, ?_⟩
  intro hnot hroot
  subst hroot
  exact hnot (hstrict rfl)

end FastdlMm
