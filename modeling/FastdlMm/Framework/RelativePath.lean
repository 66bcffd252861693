import FastdlMm.Framework.FileTree
import FastdlMm.Framework.Separated

namespace FastdlMm

variable {t : Tree}

theorem Tree.Real.of_prefix {q p : Path} (h : t.Real p) (hq : q <+: p) : t.Real q := by
  obtain ⟨s, rfl⟩ := hq
  induction s using List.reverseRecOn with
  | nil => simpa using h
  | append_singleton s n ih =>
    apply ih
    have hlast := h.dropLast
    rwa [← List.append_assoc, List.dropLast_concat] at hlast

/-- What a real path goes through is a directory. -/
theorem Tree.Real.directory {q : Path} {n : Name} {rest : List Name}
    (h : t.Real (q ++ n :: rest)) : t.entry q = some .directory := by
  have hnext : t.Real (q ++ [n]) := h.of_prefix ⟨rest, by simp⟩
  obtain ⟨e, he, -⟩ := hnext.exists_entry
  exact t.parent q n (by rw [he]; rfl)

/-- A walk passes over a real path as it stands. -/
theorem follow_real {expand : Path → List Name → Except WalkError Path} {cur : Path}
    {names rest : List Name} (h : t.Real (cur ++ names)) :
    follow t expand cur (names ++ rest) = follow t expand (cur ++ names) rest := by
  induction names generalizing cur with
  | nil => rw [List.append_nil, List.nil_append]
  | cons n names ih =>
    have hdir := h.directory
    have hnext : t.Real (cur ++ [n]) := h.of_prefix ⟨names, by simp⟩
    obtain ⟨hnil, hdot, hup⟩ := h.plain n (by simp)
    obtain ⟨e, he, hlink⟩ := hnext.exists_entry
    have hrest : t.Real (cur ++ [n] ++ names) := by simpa using h
    have hstep : follow t expand cur (n :: (names ++ rest)) =
        follow t expand (cur ++ [n]) (names ++ rest) := by
      simp only [follow, hdir, ne_eq, not_true_eq_false, if_false, hnil, hdot, or_self, hup, he]
    rw [List.cons_append, hstep, ih hrest, List.append_assoc, List.singleton_append]

theorem Tree.locate_append {p : Path} (h : t.Real p) (rest : List Name) :
    t.locate (p ++ rest) = walk t t.maxLinks p rest := by
  have hself : t.Real ([] ++ p) := h
  unfold Tree.locate
  cases t.maxLinks with
  | zero => exact follow_real hself
  | succ links => exact follow_real hself

/-- A real path stands for itself. -/
theorem Tree.Real.locate {p : Path} (h : t.Real p) : t.locate p = .ok p := by
  have hself := t.locate_append h []
  rw [List.append_nil] at hself
  rw [hself]
  cases t.maxLinks <;> rfl

theorem Tree.real_of_locate {q p : Path} (h : t.locate q = .ok p) : t.Real p :=
  Leads.real (walk_sound h) t.real_top

/-- The names of a tree as a file system has them. -/
def Tree.Named (t : Tree) : Prop :=
  ∀ p, (t.entry p).isSome → ∀ n ∈ p, '/' ∉ n ∧ '\x00' ∉ n

theorem Tree.Real.named {p : Path} (ht : t.Named) (h : t.Real p) :
    ∀ n ∈ p, '/' ∉ n ∧ '\x00' ∉ n := by
  obtain ⟨e, he, -⟩ := h.exists_entry
  exact ht p (by rw [he]; rfl)

theorem Tree.named_of_entries {entries : List (Path × Entry)} {maxLinks : Nat}
    {h : ∀ e ∈ entries, listedEntry entries e.1.dropLast = some .directory}
    (hnames : ∀ e ∈ entries, ∀ n ∈ e.1, '/' ∉ n ∧ '\x00' ∉ n) :
    (Tree.ofEntries entries maxLinks h).Named := by
  intro p hp n hn
  have hne : p ≠ [] := List.ne_nil_of_mem hn
  have hlisted : ((entries.find? fun e => e.1 = p).map Prod.snd).isSome := by
    have hp : (listedEntry entries p).isSome := hp
    rwa [listedEntry, if_neg hne] at hp
  obtain ⟨e, he⟩ := Option.isSome_iff_exists.mp (Option.isSome_map ▸ hlisted)
  have hpath : e.1 = p := by simpa using List.find?_some he
  exact hnames e (List.mem_of_find?_eq_some he) n (hpath ▸ hn)

/-- `lexically_normal` of the components behind a path that is normal. -/
def normalize : Path → List Name → Path
  | cur, [] => cur
  | cur, n :: rest =>
      if n = [] ∨ n = ['.'] then normalize cur rest
      else if n = ['.', '.'] then normalize cur.dropLast rest
      else normalize (cur ++ [n]) rest

/-- A path taken apart where its leading part ends that exists. -/
def existing (t : Tree) : List Name → List Name → Except WalkError (List Name × List Name)
  | cur, [] => .ok (cur, [])
  | cur, n :: rest =>
      match t.locate (cur ++ [n]) with
      | .ok _ => existing t (cur ++ [n]) rest
      | .error .tooManyLinks => .error .tooManyLinks
      | .error _ => .ok (cur, n :: rest)

/-- `weakly_canonical` of an absolute path: what exists of it is resolved, and the rest normalized. -/
def weaklyCanonical (t : Tree) (p : List Name) : Except WalkError Path :=
  match t.locate p with
  | .ok q => .ok q
  | .error .tooManyLinks => .error .tooManyLinks
  | .error _ => do
      let (cur, rest) ← existing t [] p
      let q ← t.locate cur
      return normalize q rest

/-- `lexically_relative` of normal absolute paths. -/
def lexicallyRelative : Path → Path → List Name
  | [], [] => [['.']]
  | n :: p, m :: base =>
      if n = m then lexicallyRelative p base
      else List.replicate (base.length + 1) ['.', '.'] ++ n :: p
  | p, base => List.replicate base.length ['.', '.'] ++ p

/-- The text of components, `/` between them. -/
def joined (p : List Name) : Text := ['/'].intercalate p

/-- The text of an absolute path. -/
def pathText (p : Path) : Text := '/' :: joined p

theorem weaklyCanonical_of_locate {p : List Name} {q : Path} (h : t.locate p = .ok q) :
    weaklyCanonical t p = .ok q := by
  rw [weaklyCanonical, h]

theorem existing_real {cur : Path} {names rest : List Name} (h : t.Real (cur ++ names)) :
    existing t cur (names ++ rest) = existing t (cur ++ names) rest := by
  induction names generalizing cur with
  | nil => rw [List.append_nil, List.nil_append]
  | cons n names ih =>
    have hnext : t.Real (cur ++ [n]) := h.of_prefix ⟨names, by simp⟩
    have hrest : t.Real (cur ++ [n] ++ names) := by simpa using h
    have hstep : existing t cur (n :: (names ++ rest)) = existing t (cur ++ [n]) (names ++ rest) := by
      rw [existing, hnext.locate]
    rw [List.cons_append, hstep, ih hrest, List.append_assoc, List.singleton_append]

/-- Below a real directory a component that is not plain leads on. -/
theorem locate_snoc_of_not_plain {p : Path} {n : Name} (hp : t.Real p)
    (hdir : t.entry p = some .directory) (hn : ¬ n.Plain) : ∃ q, t.locate (p ++ [n]) = .ok q := by
  obtain ⟨expand, hwalk, -⟩ := walk_eq_follow t t.maxLinks
  rw [t.locate_append hp, hwalk]
  by_cases hdot : n = [] ∨ n = ['.']
  · refine ⟨p, ?_⟩
    simp only [follow, hdir, ne_eq, not_true_eq_false, if_false, if_pos hdot]
  · have hup : n = ['.', '.'] := by
      by_contra hup
      exact hn ⟨fun h => hdot (.inl h), fun h => hdot (.inr h), hup⟩
    subst hup
    exact ⟨p.dropLast, by simp [follow, hdir]⟩

/-- Where everything but the last component is real, a path that does not exist stays as it is. -/
theorem weaklyCanonical_snoc {p q : Path} {n : Name} (hp : t.Real p)
    (hdir : t.entry p = some .directory) (hq : weaklyCanonical t (p ++ [n]) = .ok q) :
    t.locate (p ++ [n]) = .ok q ∨ (q = p ++ [n] ∧ ∀ q', t.locate (p ++ [n]) ≠ .ok q') := by
  cases hlocate : t.locate (p ++ [n]) with
  | ok q' =>
    rw [weaklyCanonical_of_locate hlocate] at hq
    exact .inl hq
  | error e =>
    have hplain : n.Plain := by
      by_contra hno
      obtain ⟨q', hq'⟩ := locate_snoc_of_not_plain hp hdir hno
      rw [hlocate] at hq'
      cases hq'
    have hnone (he : e ≠ .tooManyLinks) : q = p ++ [n] := by
      have hself : t.Real ([] ++ p) := hp
      have hexisting : existing t [] (p ++ [n]) = .ok (p, [n]) := by
        rw [existing_real hself, List.nil_append, existing, hlocate]
        cases e with
        | tooManyLinks => exact absurd rfl he
        | noEntry => rfl
        | notDirectory => rfl
      have hq : (do
          let (cur, rest) ← existing t [] (p ++ [n])
          let q ← t.locate cur
          return normalize q rest : Except WalkError Path) = .ok q := by
        cases e with
        | tooManyLinks => exact absurd rfl he
        | noEntry => rwa [weaklyCanonical, hlocate] at hq
        | notDirectory => rwa [weaklyCanonical, hlocate] at hq
      rw [hexisting] at hq
      have hq : (t.locate p >>= fun q => (return normalize q [n] : Except WalkError Path)) = .ok q := hq
      rw [hp.locate] at hq
      obtain ⟨hnil, hdot, hup⟩ := hplain
      have hq : normalize p [n] = q := Except.ok.inj hq
      simp only [normalize, hnil, hdot, or_self, hup, if_false] at hq
      exact hq.symm
    refine .inr ⟨hnone ?_, fun q' hq' => by cases hq'⟩
    rintro rfl
    rw [weaklyCanonical, hlocate] at hq
    cases hq

/-- What lies below a directory is relative to it by its own components. -/
theorem lexicallyRelative_append {n : Name} (base below : Path) :
    lexicallyRelative (base ++ n :: below) base = n :: below := by
  induction base with
  | nil => rfl
  | cons m base ih =>
    rw [List.cons_append, lexicallyRelative, if_pos rfl]
    exact ih

/-- Any other place is the directory itself or is reached through a step upwards. -/
theorem lexicallyRelative_cases (p base : Path) :
    (∃ n below, p = base ++ n :: below ∧ lexicallyRelative p base = n :: below) ∨
      lexicallyRelative p base = [['.']] ∨
      ∃ rest, lexicallyRelative p base = ['.', '.'] :: rest := by
  induction base generalizing p with
  | nil =>
    cases p with
    | nil => exact .inr (.inl rfl)
    | cons n p => exact .inl ⟨n, p, rfl, rfl⟩
  | cons m base ih =>
    cases p with
    | nil => exact .inr (.inr ⟨_, rfl⟩)
    | cons n p =>
      by_cases heq : n = m
      · subst heq
        rw [lexicallyRelative, if_pos rfl]
        rcases ih p with ⟨n', below, hp, hrel⟩ | hor
        · exact .inl ⟨n', below, by rw [hp]; rfl, hrel⟩
        · exact .inr hor
      · rw [lexicallyRelative, if_neg heq]
        exact .inr (.inr ⟨_, rfl⟩)

section Texts

variable {p : List Name}

theorem splitOn_joined (hp : p ≠ []) (h : ∀ n ∈ p, '/' ∉ n) : (joined p).splitOn '/' = p :=
  List.splitOn_intercalate '/' h hp

theorem joined_inj {p' : List Name} (hp : p ≠ []) (hp' : p' ≠ []) (h : ∀ n ∈ p, '/' ∉ n)
    (h' : ∀ n ∈ p', '/' ∉ n) (heq : joined p = joined p') : p = p' := by
  rw [← splitOn_joined hp h, heq, splitOn_joined hp' h']

theorem not_mem_joined {c : Char} (hc : c ≠ '/') (h : ∀ n ∈ p, c ∉ n) : c ∉ joined p := by
  intro hmem
  rcases mem_intercalate hmem with heq | ⟨n, hn, hcn⟩
  · exact hc heq
  · exact h n hn hcn

theorem mem_joined {n : Name} {c : Char} (hn : n ∈ p) (hc : c ∈ n) : c ∈ joined p := by
  induction p with
  | nil => cases hn
  | cons m rest ih =>
    by_cases hrest : rest = []
    · subst hrest
      cases List.mem_singleton.mp hn
      simpa [joined] using hc
    · rw [joined, List.intercalate_cons_of_ne_nil hrest]
      rcases List.mem_cons.mp hn with rfl | hn
      · exact List.mem_append_left _ (List.mem_append_left _ hc)
      · exact List.mem_append_right _ (ih hn)

theorem joined_cons_cons (n m : Name) (rest : List Name) :
    joined (n :: m :: rest) = n ++ '/' :: joined (m :: rest) := by
  simp [joined, List.intercalate_cons_cons]

/-- A path that goes upwards first shows it. -/
theorem joined_upward (rest : List Name) : joined (['.', '.'] :: rest) = ['.', '.'] ∨
    ['.', '.', '/'] <+: joined (['.', '.'] :: rest) := by
  cases rest with
  | nil => exact .inl List.intercalate_singleton
  | cons m rest =>
    rw [joined_cons_cons]
    exact .inr ⟨joined (m :: rest), rfl⟩

/-- A path that goes onwards first does not look like one that goes upwards. -/
theorem joined_onward {n : Name} (hn : '/' ∉ n) (hplain : n.Plain) (rest : List Name) :
    ¬ (joined (n :: rest) = [] ∨ joined (n :: rest) = ['.', '.'] ∨
      ['.', '.', '/'] <+: joined (n :: rest)) := by
  obtain ⟨hnil, -, hup⟩ := hplain
  cases rest with
  | nil =>
    have hsingle : joined [n] = n := List.intercalate_singleton
    rw [hsingle]
    rintro (hempty | htwo | hfirst)
    · exact hnil hempty
    · exact hup htwo
    · exact hn (hfirst.subset (by simp))
  | cons m rest =>
    rw [joined_cons_cons]
    have hslash : '/' ∈ n ++ '/' :: joined (m :: rest) := by simp
    rintro (hempty | htwo | ⟨s, hfirst⟩)
    · rw [hempty] at hslash
      cases hslash
    · rw [htwo] at hslash
      exact absurd hslash (by decide)
    · have hparts := congrArg (List.splitOn '/') hfirst
      have hhead : ['.', '.', '/'] ++ s = ['.', '.'] ++ '/' :: s := rfl
      rw [hhead, List.splitOn_append_cons_self_of_not_mem (by decide),
        List.splitOn_append_cons_self_of_not_mem hn] at hparts
      exact hup (List.cons.inj hparts).1.symm

end Texts
end FastdlMm
