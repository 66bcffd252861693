import FastdlMm.Framework.RelativePath

namespace FastdlMm

/-- The tree with a directory of that name. -/
def Tree.makeDirectory (t : Tree) (p : Path) (n : Name) (h : t.entry p = some .directory) : Tree where
  entry q := if q = p ++ [n] then some .directory else t.entry q
  maxLinks := t.maxLinks
  top := by rw [if_neg (by simp), t.top]
  parent := by
    intro q m hsome
    by_cases hself : q = p ++ [n]
    · rw [if_pos hself]
    · rw [if_neg hself]
      by_cases hnew : q ++ [m] = p ++ [n]
      · rw [(List.append_inj' hnew rfl).1, h]
      · rw [if_neg hnew] at hsome
        exact t.parent q m hsome

inductive MakeError where
  | walk (e : WalkError)
  | notDirectory
  | fileExists
  deriving DecidableEq

/-- `create_directories`: the tree afterwards, and what stopped it. -/
def createDirectories (t : Tree) (front : List Name) : List Name → Tree × Option MakeError
  | [] => (t, none)
  | n :: rest =>
      match t.locate (front ++ [n]) with
      | .ok place =>
          if t.entry place = some .directory then createDirectories t (front ++ [n]) rest
          else (t, some .notDirectory)
      | .error .noEntry =>
          match t.locate front with
          | .error e => (t, some (.walk e))
          | .ok place =>
              if h : t.entry place = some .directory then
                -- a link that leads nowhere is in the way of `mkdir`
                if t.entry (place ++ [n]) = none then
                  createDirectories (t.makeDirectory place n h) (front ++ [n]) rest
                else (t, some .fileExists)
              else (t, some .notDirectory)
      | .error e => (t, some (.walk e))

/-- Whether a walk gets to the end of a front decides how it goes on. -/
def Splits (t : Tree) (go : Path → List Name → Except WalkError Path) : Prop :=
  ∀ cur xs ys, (∃ q left, go cur xs = .ok q ∧ go cur (xs ++ ys) = walk t left q ys) ∨
    ∃ e, go cur xs = .error e ∧ go cur (xs ++ ys) = .error e

variable {t : Tree}

theorem Splits.follow {go : Path → List Name → Except WalkError Path} (h : Splits t go)
    {links : Nat} (hself : walk t links = follow t go) : Splits t (follow t go) := by
  intro cur xs ys
  induction xs generalizing cur with
  | nil =>
    refine .inl ⟨cur, links, rfl, ?_⟩
    rw [hself, List.nil_append]
  | cons n xs ih =>
    rw [List.cons_append]
    simp only [FastdlMm.follow]
    by_cases hdir : t.entry cur ≠ some .directory
    · exact .inr ⟨_, if_pos hdir, if_pos hdir⟩
    · simp only [if_neg hdir]
      by_cases hdot : n = [] ∨ n = ['.']
      · simp only [if_pos hdot]
        exact ih cur
      · simp only [if_neg hdot]
        by_cases hup : n = ['.', '.']
        · simp only [if_pos hup]
          exact ih cur.dropLast
        · simp only [if_neg hup]
          split
          · exact .inr ⟨_, rfl, rfl⟩
          · rename_i l hl
            have hlink := h (if l.absolute then [] else cur) (l.components ++ xs) ys
            rwa [List.append_assoc] at hlink
          · exact ih _

theorem splits_walk (t : Tree) (links : Nat) : Splits t (walk t links) := by
  induction links with
  | zero =>
    have hself : walk t 0 = follow t (fun _ _ => .error .tooManyLinks) := rfl
    rw [hself]
    exact Splits.follow (fun _ _ _ => .inr ⟨_, rfl, rfl⟩) hself
  | succ links ih =>
    have hself : walk t (links + 1) = follow t (walk t links) := rfl
    rw [hself]
    exact ih.follow hself

/-- From the place of the front, the walk goes on. -/
theorem Tree.locate_onward {front : List Name} {q : Path} (h : t.locate front = .ok q)
    (ys : List Name) : ∃ left, t.locate (front ++ ys) = walk t left q ys := by
  obtain ⟨q', left, hq, hys⟩ | ⟨e, he, -⟩ := splits_walk t t.maxLinks [] front ys
  · have hsame : q' = q := Except.ok.inj (hq.symm.trans h)
    exact ⟨left, hsame ▸ hys⟩
  · have herror : t.locate front = .error e := he
    rw [h] at herror
    cases herror

/-- What leads somewhere, each front of it does. -/
theorem Tree.locate_front {front ys : List Name} {p : Path} (h : t.locate (front ++ ys) = .ok p) :
    ∃ q, t.locate front = .ok q := by
  obtain ⟨q, -, hq, -⟩ | ⟨e, -, he⟩ := splits_walk t t.maxLinks [] front ys
  · exact ⟨q, hq⟩
  · have herror : t.locate (front ++ ys) = .error e := he
    rw [h] at herror
    cases herror

/-- What exists in one tree is the same in the other. -/
structure Tree.Extends (t' t : Tree) : Prop where
  maxLinks : t'.maxLinks = t.maxLinks
  entry : ∀ p e, t.entry p = some e → t'.entry p = some e

theorem follow_extends {t' : Tree} (ht : t'.Extends t)
    {go go' : Path → List Name → Except WalkError Path}
    (hgo : ∀ cur rest p, go cur rest = .ok p → go' cur rest = .ok p) {cur p : Path}
    {rest : List Name} (h : follow t go cur rest = .ok p) : follow t' go' cur rest = .ok p := by
  induction rest generalizing cur with
  | nil => exact h
  | cons n rest ih =>
    simp only [follow] at h ⊢
    split_ifs at h with hdir hdot hup
    · rw [if_neg (not_not.mpr (ht.entry _ _ (not_not.mp hdir))), if_pos hdot]
      exact ih h
    · rw [if_neg (not_not.mpr (ht.entry _ _ (not_not.mp hdir))), if_neg hdot, if_pos hup]
      exact ih h
    · rw [if_neg (not_not.mpr (ht.entry _ _ (not_not.mp hdir))), if_neg hdot, if_neg hup]
      split at h
      · cases h
      · rename_i l hl
        rw [ht.entry _ _ hl]
        exact hgo _ _ _ h
      · rename_i e hnot hl
        rw [ht.entry _ _ hl]
        cases e with
        | symlink l => exact absurd rfl (hnot l)
        | directory => exact ih h
        | file inode size => exact ih h
        | special => exact ih h

theorem Tree.Extends.locate {t' : Tree} (ht : t'.Extends t) {p : List Name} {q : Path}
    (h : t.locate p = .ok q) : t'.locate p = .ok q := by
  have hwalk : ∀ links cur rest p, walk t links cur rest = .ok p → walk t' links cur rest = .ok p := by
    intro links
    induction links with
    | zero =>
      intro cur rest p
      exact follow_extends ht fun _ _ _ h => by cases h
    | succ links ih =>
      intro cur rest p
      exact follow_extends ht ih
  rw [Tree.locate, ht.maxLinks]
  exact hwalk _ _ _ _ h

section Make

variable {front : List Name} {q : Path} {n : Name}

/-- A component that is no name leads on from a directory, and any other into it. -/
theorem Tree.locate_snoc (h : t.locate front = .ok q) (hdir : t.entry q = some .directory)
    (hup : n ≠ ['.', '.']) :
    t.locate (front ++ [n]) = .ok (if n = [] ∨ n = ['.'] then q else q ++ [n]) ∨
      (n.Plain ∧ t.entry (q ++ [n]) = none ∧ t.locate (front ++ [n]) = .error .noEntry) ∨
      (n.Plain ∧ ∃ l, t.entry (q ++ [n]) = some (.symlink l)) := by
  obtain ⟨left, hon⟩ := t.locate_onward h [n]
  obtain ⟨expand, hwalk, -⟩ := walk_eq_follow t left
  rw [hon, hwalk]
  by_cases hdot : n = [] ∨ n = ['.']
  · left
    simp only [follow, hdir, ne_eq, not_true_eq_false, if_false, if_pos hdot]
  · have hplain : n.Plain := ⟨fun h => hdot (.inl h), fun h => hdot (.inr h), hup⟩
    simp only [follow, hdir, ne_eq, not_true_eq_false, if_false, if_neg hdot, if_neg hup]
    cases he : t.entry (q ++ [n]) with
    | none => exact .inr (.inl ⟨hplain, rfl, rfl⟩)
    | some e =>
      cases e with
      | symlink l => exact .inr (.inr ⟨hplain, l, rfl⟩)
      | directory => exact .inl rfl
      | file inode size => exact .inl rfl
      | special => exact .inl rfl

theorem makeDirectory_extends (hdir : t.entry q = some .directory) (hnone : t.entry (q ++ [n]) = none) :
    (t.makeDirectory q n hdir).Extends t := by
  refine ⟨rfl, fun p e he => ?_⟩
  show (if p = q ++ [n] then some Entry.directory else t.entry p) = some e
  rw [if_neg, he]
  rintro rfl
  rw [hnone] at he
  cases he

/-- A new directory is found under its name. -/
theorem locate_makeDirectory (h : t.locate front = .ok q) (hdir : t.entry q = some .directory)
    (hplain : n.Plain) (hnone : t.entry (q ++ [n]) = none) :
    (t.makeDirectory q n hdir).locate (front ++ [n]) = .ok (q ++ [n]) := by
  have hextends := makeDirectory_extends hdir hnone
  have hnew : (t.makeDirectory q n hdir).entry (q ++ [n]) = some .directory := if_pos rfl
  obtain hok | ⟨-, hnot, -⟩ | ⟨-, l, hlink⟩ := Tree.locate_snoc (hextends.locate h)
    (hextends.entry _ _ hdir) hplain.2.2
  · rwa [if_neg (not_or.mpr ⟨hplain.1, hplain.2.1⟩)] at hok
  · rw [hnew] at hnot
    cases hnot
  · rw [hnew] at hlink
    cases hlink

/-- There is nothing in a new directory. -/
theorem makeDirectory_empty (hdir : t.entry q = some .directory)
    (hnone : t.entry (q ++ [n]) = none) (m : Name) :
    (t.makeDirectory q n hdir).entry (q ++ [n] ++ [m]) = none := by
  show (if q ++ [n] ++ [m] = q ++ [n] then some Entry.directory else t.entry (q ++ [n] ++ [m])) = none
  rw [if_neg (by simp)]
  by_contra hsome
  have hparent := t.parent (q ++ [n]) m (Option.isSome_iff_ne_none.mpr hsome)
  rw [hnone] at hparent
  cases hparent

end Make

theorem prefix_normalize {rest : List Name} (hup : ['.', '.'] ∉ rest) (cur : Path) :
    cur <+: normalize cur rest := by
  induction rest generalizing cur with
  | nil => exact List.prefix_rfl
  | cons n rest ih =>
    have hrest : ['.', '.'] ∉ rest := fun h => hup (List.mem_cons_of_mem n h)
    have hn : n ≠ ['.', '.'] := fun h => hup (h ▸ List.mem_cons_self)
    simp only [normalize, if_neg hn]
    split_ifs
    · exact ih hrest cur
    · exact (List.prefix_append cur [n]).trans (ih hrest _)

/-- Whatever differs are new directories on the way to a place. -/
def Towards (t t' : Tree) (p : Path) : Prop :=
  ∀ x, t'.entry x ≠ t.entry x → t.entry x = none ∧ t'.entry x = some .directory ∧ x <+: p

theorem Towards.same (t : Tree) (p : Path) : Towards t t p := fun _ h => absurd rfl h

theorem Towards.make {t' : Tree} {q p : Path} {n : Name} {hdir : t.entry q = some .directory}
    (hnone : t.entry (q ++ [n]) = none) (hn : q ++ [n] <+: p)
    (h : Towards (t.makeDirectory q n hdir) t' p) : Towards t t' p := by
  intro x hx
  by_cases hself : x = q ++ [n]
  · subst hself
    by_cases hsame : t'.entry (q ++ [n]) = (t.makeDirectory q n hdir).entry (q ++ [n])
    · exact ⟨hnone, hsame.trans (if_pos rfl), hn⟩
    · exact ⟨hnone, (h _ hsame).2.1, hn⟩
  · have hold : (t.makeDirectory q n hdir).entry x = t.entry x := if_neg hself
    rw [← hold] at hx ⊢
    exact h x hx

/-- In an empty directory all is created right below. -/
theorem createDirectories_empty {front rest : List Name} {q : Path} (h : t.locate front = .ok q)
    (hdir : t.entry q = some .directory) (hempty : ∀ n, t.entry (q ++ [n]) = none)
    (hup : ['.', '.'] ∉ rest) : Towards t (createDirectories t front rest).1 (normalize q rest) := by
  induction rest generalizing t front q with
  | nil => exact .same t q
  | cons n rest ih =>
    have hrest : ['.', '.'] ∉ rest := fun h => hup (List.mem_cons_of_mem n h)
    have hn : n ≠ ['.', '.'] := fun h => hup (h ▸ List.mem_cons_self)
    simp only [createDirectories, normalize, if_neg hn]
    obtain hok | ⟨hplain, hnone, herror⟩ | ⟨-, l, hlink⟩ := Tree.locate_snoc h hdir hn
    · rw [hok]
      by_cases hdot : n = [] ∨ n = ['.']
      · rw [if_pos hdot] at hok ⊢
        simp only [if_pos hdot, if_pos hdir]
        exact ih hok hdir hempty hrest
      · have hreal := t.real_of_locate hok
        rw [if_neg hdot] at hreal
        obtain ⟨e, he, -⟩ := hreal.exists_entry
        rw [hempty n] at he
        cases he
    · rw [herror]
      have hdot : ¬ (n = [] ∨ n = ['.']) := not_or.mpr ⟨hplain.1, hplain.2.1⟩
      simp only [h, dif_pos hdir, if_pos hnone, if_neg hdot]
      exact .make hnone (prefix_normalize hrest _)
        (ih (locate_makeDirectory h hdir hplain hnone) (if_pos rfl) (makeDirectory_empty hdir hnone)
          hrest)
    · rw [hempty n] at hlink
      cases hlink

/-- From the first component that is missing, all is created on the way to where the path is to
lead. -/
theorem createDirectories_missing {front rest : List Name} {n : Name} {q : Path} {e : WalkError}
    (h : t.locate front = .ok q) (hmissing : t.locate (front ++ [n]) = .error e)
    (hup : ['.', '.'] ∉ n :: rest) :
    Towards t (createDirectories t front (n :: rest)).1 (normalize q (n :: rest)) := by
  have hrest : ['.', '.'] ∉ rest := fun h => hup (List.mem_cons_of_mem n h)
  have hn : n ≠ ['.', '.'] := fun h => hup (h ▸ List.mem_cons_self)
  simp only [createDirectories, hmissing]
  cases e with
  | notDirectory => exact .same t _
  | tooManyLinks => exact .same t _
  | noEntry =>
    simp only [h]
    by_cases hdir : t.entry q = some .directory
    · simp only [dif_pos hdir]
      by_cases hnone : t.entry (q ++ [n]) = none
      · simp only [if_pos hnone]
        obtain hok | ⟨hplain, -, -⟩ | ⟨-, l, hlink⟩ := Tree.locate_snoc h hdir hn
        · rw [hmissing] at hok
          cases hok
        · have hdot : ¬ (n = [] ∨ n = ['.']) := not_or.mpr ⟨hplain.1, hplain.2.1⟩
          simp only [normalize, if_neg hdot, if_neg hn]
          exact .make hnone (prefix_normalize hrest _) (createDirectories_empty
            (locate_makeDirectory h hdir hplain hnone) (if_pos rfl) (makeDirectory_empty hdir hnone)
            hrest)
        · rw [hnone] at hlink
          cases hlink
      · simp only [if_neg hnone]
        exact .same t _
    · simp only [dif_neg hdir]
      exact .same t _

/-- Where the whole path leads somewhere, nothing is created. -/
theorem createDirectories_of_locate {front rest : List Name} {p : Path}
    (h : t.locate (front ++ rest) = .ok p) : (createDirectories t front rest).1 = t := by
  induction rest generalizing front with
  | nil => rfl
  | cons n rest ih =>
    have hcons : t.locate (front ++ [n] ++ rest) = .ok p := by simpa using h
    obtain ⟨q, hq⟩ := Tree.locate_front hcons
    simp only [createDirectories, hq]
    split_ifs
    · exact ih hcons
    · rfl

/-- What is created lies on the way from what exists of the path to where it is to lead. -/
theorem createDirectories_of_existing {front rest cur more : List Name} {p : Path}
    (hfront : t.locate front = .ok p) (hexisting : existing t front rest = .ok (cur, more))
    (hup : ['.', '.'] ∉ more) : ∃ q, t.locate cur = .ok q ∧
      Towards t (createDirectories t front rest).1 (normalize q more) := by
  induction rest generalizing front p with
  | nil =>
    cases hexisting
    exact ⟨p, hfront, .same t _⟩
  | cons n rest ih =>
    rw [existing] at hexisting
    split at hexisting
    · rename_i q hq
      obtain ⟨place, hplace, htowards⟩ := ih hq hexisting
      refine ⟨place, hplace, ?_⟩
      simp only [createDirectories, hq]
      split_ifs
      · exact htowards
      · exact .same t _
    · cases hexisting
    · rename_i e hnot hmissing
      cases hexisting
      exact ⟨p, hfront, createDirectories_missing hfront hmissing hup⟩

/-- The part of a path that is missing, if one is. -/
def missing (t : Tree) (p : List Name) : List Name :=
  match t.locate p, existing t [] p with
  | .error _, .ok (_, more) => more
  | _, _ => []

/-- Where the missing part does not go upwards, `create_directories` creates directories on the way
to the place that `weakly_canonical` announces, and nothing else. -/
theorem createDirectories_towards {path : List Name} {p : Path}
    (hweak : weaklyCanonical t path = .ok p) (hup : ['.', '.'] ∉ missing t path) :
    Towards t (createDirectories t [] path).1 p := by
  cases hlocate : t.locate path with
  | ok q =>
    have hsame : (createDirectories t [] path).1 = t := createDirectories_of_locate hlocate
    rw [hsame]
    exact .same t p
  | error e =>
    cases hexisting : existing t [] path with
    | error e' =>
      have herror : weaklyCanonical t path = .error .tooManyLinks ∨
          weaklyCanonical t path = .error e' := by
        rw [weaklyCanonical, hlocate]
        cases e with
        | tooManyLinks => exact .inl rfl
        | noEntry => exact .inr (by simp only [hexisting]; rfl)
        | notDirectory => exact .inr (by simp only [hexisting]; rfl)
      rw [hweak] at herror
      obtain h | h := herror
      · cases h
      · cases h
    | ok parts =>
      obtain ⟨cur, more⟩ := parts
      rw [missing, hlocate, hexisting] at hup
      obtain ⟨q, hq, htowards⟩ :=
        createDirectories_of_existing (t.real_top.locate) hexisting hup
      have hplace : p = normalize q more := by
        rw [weaklyCanonical, hlocate] at hweak
        cases e with
        | tooManyLinks => cases hweak
        | noEntry =>
          simp only [hexisting] at hweak
          have hweak : (t.locate cur >>= fun q => (return normalize q more : Except WalkError Path)) =
            .ok p := hweak
          rw [hq] at hweak
          exact (Except.ok.inj hweak).symm
        | notDirectory =>
          simp only [hexisting] at hweak
          have hweak : (t.locate cur >>= fun q => (return normalize q more : Except WalkError Path)) =
            .ok p := hweak
          rw [hq] at hweak
          exact (Except.ok.inj hweak).symm
      rw [hplace]
      exact htowards

end FastdlMm
