import Mathlib.Data.List.Basic

namespace FastdlMm

/-- A nonempty list is one entry, or it has a first and a last. -/
theorem singleton_or_ends {α : Type} {ls : List α} (h : ls ≠ []) :
    (∃ only, ls = [only]) ∨ ∃ first inner last, ls = first :: inner ++ [last] := by
  cases ls with
  | nil => exact absurd rfl h
  | cons first rest =>
    rcases List.eq_nil_or_concat rest with rfl | ⟨inner, last, rfl⟩
    · exact .inl ⟨first, rfl⟩
    · exact .inr ⟨first, inner, last, by simp⟩

section

variable {α : Type} [BEq α] [LawfulBEq α] {x : α}

/-- Splitting a joined text splits each of its parts. -/
theorem splitOn_intercalate_flatMap {ls : List (List α)} (h : ls ≠ []) :
    ([x].intercalate ls).splitOn x = ls.flatMap (fun l => l.splitOn x) := by
  induction ls with
  | nil => exact absurd rfl h
  | cons l rest ih =>
    cases rest with
    | nil => simp
    | cons m more =>
      have hrest := ih (by simp)
      rw [List.intercalate_cons_cons, List.append_assoc, List.singleton_append,
        List.splitOn_append_cons_self, hrest]
      simp only [List.flatMap_cons]

omit [BEq α] [LawfulBEq α] in
theorem mem_intercalate {c : α} {ls : List (List α)} (h : c ∈ [x].intercalate ls) :
    c = x ∨ ∃ l ∈ ls, c ∈ l := by
  induction ls with
  | nil => cases h
  | cons l rest ih =>
    by_cases hrest : rest = []
    · subst hrest
      rw [List.intercalate_singleton] at h
      exact .inr ⟨l, List.mem_cons_self, h⟩
    · rw [List.intercalate_cons_of_ne_nil hrest, List.mem_append, List.mem_append,
        List.mem_singleton] at h
      rcases h with (h | h) | h
      · exact .inr ⟨l, List.mem_cons_self, h⟩
      · exact .inl h
      · rcases ih h with heq | ⟨m, hm, hmem⟩
        · exact .inl heq
        · exact .inr ⟨m, List.mem_cons_of_mem _ hm, hmem⟩

/-- The parts have what the text has, the separator apart. -/
theorem mem_of_splitOn {l p : List α} (hp : p ∈ l.splitOn x) : ∀ c ∈ p, c ∈ l ∧ c ≠ x := by
  induction l generalizing p with
  | nil =>
    rw [List.splitOn_nil] at hp
    cases List.mem_singleton.mp hp
    simp
  | cons a l ih =>
    have hlater {q : List α} (hq : q ∈ l.splitOn x) : ∀ c ∈ q, c ∈ a :: l ∧ c ≠ x := by
      intro c hc
      exact ⟨List.mem_cons_of_mem _ (ih hq c hc).1, (ih hq c hc).2⟩
    rw [List.splitOn_cons_eq_if_modifyHead] at hp
    split_ifs at hp with ha
    · rcases List.mem_cons.mp hp with rfl | hp
      · simp
      · exact hlater hp
    · obtain ⟨first, rest, hsplit⟩ := List.exists_cons_of_ne_nil (List.splitOn_ne_nil x l)
      rw [hsplit, List.modifyHead_cons] at hp
      rw [hsplit] at hlater
      rcases List.mem_cons.mp hp with rfl | hp
      · intro c hc
        rcases List.mem_cons.mp hc with rfl | hc
        · exact ⟨List.mem_cons_self, fun h => ha (by simp [h])⟩
        · exact hlater List.mem_cons_self c hc
      · exact hlater (List.mem_cons_of_mem _ hp)

theorem not_mem_of_splitOn {l p : List α} (hp : p ∈ l.splitOn x) : x ∉ p :=
  fun hx => (mem_of_splitOn hp x hx).2 rfl

theorem eq_of_splitOn_singleton {l only : List α} (h : l.splitOn x = [only]) : l = only := by
  have hjoin : [x].intercalate (l.splitOn x) = l := List.intercalate_splitOn x
  rw [h] at hjoin
  simpa using hjoin.symm

/-- A text without the separator comes back whole, with whatever stands around it. -/
theorem splitOn_surround_only {u l v only : List α} (hu : x ∉ u) (hv : x ∉ v)
    (h : l.splitOn x = [only]) : (u ++ l ++ v).splitOn x = [u ++ l ++ v] := by
  have honly : x ∉ only := not_mem_of_splitOn (h ▸ List.mem_singleton_self only)
  rw [eq_of_splitOn_singleton h]
  apply List.splitOn_eq_singleton
  simp [hu, hv, honly]

/-- A first part and more come from a text with the separator behind that part. -/
theorem exists_of_splitOn_cons {l p : List α} {rest : List (List α)} (hrest : rest ≠ [])
    (h : l.splitOn x = p :: rest) : ∃ l', l = p ++ x :: l' ∧ x ∉ p ∧ l'.splitOn x = rest := by
  have hp : x ∉ p := not_mem_of_splitOn (h ▸ List.mem_cons_self)
  have hl : l = p ++ x :: [x].intercalate rest := by
    have hjoin : [x].intercalate (l.splitOn x) = l := List.intercalate_splitOn x
    rw [h, List.intercalate_cons_of_ne_nil hrest] at hjoin
    simpa using hjoin.symm
  refine ⟨_, hl, hp, ?_⟩
  rw [hl, List.splitOn_append_cons_self_of_not_mem hp] at h
  exact (List.cons.inj h).2

private theorem splitOn_append_last {l v last : List α} {inner : List (List α)} (hv : x ∉ v)
    (h : l.splitOn x = inner ++ [last]) : (l ++ v).splitOn x = inner ++ [last ++ v] := by
  induction inner generalizing l with
  | nil =>
    have hwhole := splitOn_surround_only (List.not_mem_nil) hv h
    rw [List.nil_append] at hwhole
    rw [hwhole, eq_of_splitOn_singleton h, List.nil_append]
  | cons p inner ih =>
    obtain ⟨l', rfl, hp, hl'⟩ := exists_of_splitOn_cons (by simp) h
    have hrest := ih hl'
    rw [List.append_assoc, List.cons_append, List.splitOn_append_cons_self_of_not_mem hp, hrest,
      List.cons_append]

/-- What stands around a text with the separator goes to its first part and to its last. -/
theorem splitOn_surround {u l v first last : List α} {inner : List (List α)} (hu : x ∉ u)
    (hv : x ∉ v) (h : l.splitOn x = first :: inner ++ [last]) :
    (u ++ l ++ v).splitOn x = (u ++ first) :: inner ++ [last ++ v] := by
  obtain ⟨l', rfl, hfirst, hl'⟩ := exists_of_splitOn_cons (by simp) h
  have hhead : x ∉ u ++ first := by simp [hu, hfirst]
  have hshape : u ++ (first ++ x :: l') ++ v = (u ++ first) ++ x :: (l' ++ v) := by simp
  rw [hshape, List.splitOn_append_cons_self_of_not_mem hhead, splitOn_append_last hv hl',
    List.cons_append]

end

theorem takeWhile_append_cons_self {α : Type} [DecidableEq α] {c : α} {l : List α} (h : c ∉ l)
    (rest : List α) : (l ++ c :: rest).takeWhile (· ≠ c) = l := by
  have hplain : ∀ a ∈ l, decide (a ≠ c) = true := by
    intro a ha
    simpa using ne_of_mem_of_not_mem ha h
  rw [List.takeWhile_append_of_pos hplain]
  simp

theorem dropWhile_append_cons_self {α : Type} [DecidableEq α] {c : α} {l : List α} (h : c ∉ l)
    (rest : List α) : (l ++ c :: rest).dropWhile (· ≠ c) = c :: rest := by
  have hplain : ∀ a ∈ l, decide (a ≠ c) = true := by
    intro a ha
    simpa using ne_of_mem_of_not_mem ha h
  rw [List.dropWhile_append_of_pos hplain]
  simp

/-- What stands before the first separator. -/
theorem takeWhile_append_self {α : Type} [DecidableEq α] (c : α) (l rest : List α) :
    (l ++ c :: rest).takeWhile (· ≠ c) = l.takeWhile (· ≠ c) := by
  induction l with
  | nil => simp
  | cons a l ih =>
    rw [List.cons_append, List.takeWhile_cons, List.takeWhile_cons, ih]

theorem takeWhile_append_cons {α : Type} [DecidableEq α] {c x : α} (hx : x ≠ c) (l rest : List α) :
    (l ++ x :: rest).takeWhile (· ≠ c) =
      if c ∈ l then l.takeWhile (· ≠ c) else l ++ x :: rest.takeWhile (· ≠ c) := by
  induction l with
  | nil => simp [hx]
  | cons a l ih =>
    by_cases ha : a = c
    · subst ha
      simp
    · have ha' : c ≠ a := fun h => ha h.symm
      simp only [List.cons_append, List.takeWhile_cons, ne_eq, ha, not_false_eq_true, decide_true,
        if_true, List.mem_cons, ha', false_or]
      simp only [ne_eq] at ih
      rw [ih]
      split_ifs <;> rfl

/-- The first separator parts a list in one way only. -/
theorem append_cons_inj_left {α : Type} [DecidableEq α] {c : α} {l l' d d' : List α} (hl : c ∉ l)
    (hl' : c ∉ l') (h : l ++ c :: d = l' ++ c :: d') : l = l' ∧ d = d' := by
  have hfirst := congrArg (List.takeWhile (· ≠ c)) h
  rw [takeWhile_append_cons_self hl, takeWhile_append_cons_self hl'] at hfirst
  subst hfirst
  exact ⟨rfl, (List.cons.inj (List.append_cancel_left h)).2⟩

/-- The last separator parts a list in one way only. -/
theorem append_cons_inj {α : Type} {c : α} {l l' d d' : List α} (hd : c ∉ d) (hd' : c ∉ d')
    (h : l ++ c :: d = l' ++ c :: d') : l = l' ∧ d = d' := by
  rcases List.append_eq_append_iff.mp h with ⟨as, hl, hcons⟩ | ⟨as, hl, hcons⟩
  · cases as with
    | nil => exact ⟨by simpa using hl.symm, by simpa using hcons⟩
    | cons a as =>
      obtain ⟨-, rfl⟩ := List.cons.inj hcons
      exact absurd (by simp) hd
  · cases as with
    | nil => exact ⟨by simpa using hl, by simpa using hcons.symm⟩
    | cons a as =>
      obtain ⟨-, rfl⟩ := List.cons.inj hcons
      exact absurd (by simp) hd'

/-- Lists related entry by entry have related entries of a kind together. -/
theorem exists_mem_iff_of_forall₂ {α β : Type} {R : α → β → Prop} {P : α → Prop} {Q : β → Prop}
    {as : List α} {bs : List β} (h : List.Forall₂ R as bs)
    (hR : ∀ a ∈ as, ∀ b, R a b → (P a ↔ Q b)) : (∃ a ∈ as, P a) ↔ ∃ b ∈ bs, Q b := by
  induction h with
  | nil => simp
  | cons hab _ ih =>
    have hrest := ih fun a ha => hR a (List.mem_cons_of_mem _ ha)
    simp only [List.mem_cons, exists_eq_or_imp, hR _ List.mem_cons_self _ hab, hrest]

end FastdlMm
