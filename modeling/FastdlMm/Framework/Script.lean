namespace FastdlMm

section

variable {α σ : Type} (perform : α → σ → σ) (needs : α → σ → Prop)

/-- Every act of a script finds what it needs, and the script ends as it should. -/
def Checked (ends : σ → Prop) : List α → σ → Prop
  | [], s => ends s
  | a :: rest, s => needs a s ∧ Checked ends rest (perform a s)

/-- The state after a script. -/
def performAll (acts : List α) (s : σ) : σ := acts.foldl (fun s a => perform a s) s

variable {perform needs}

theorem Checked.mono {ends ends' : σ → Prop} (h : ∀ s, ends s → ends' s) {acts : List α} {s : σ}
    (hs : Checked perform needs ends acts s) : Checked perform needs ends' acts s := by
  induction acts generalizing s with
  | nil => exact h s hs
  | cons a rest ih => exact ⟨hs.1, ih hs.2⟩

/-- Two scripts one after the other: the first ends where the second may begin. -/
theorem checked_append {ends : σ → Prop} {acts acts' : List α} {s : σ} :
    Checked perform needs ends (acts ++ acts') s ↔
      Checked perform needs (Checked perform needs ends acts') acts s := by
  induction acts generalizing s with
  | nil => exact Iff.rfl
  | cons a rest ih => exact and_congr Iff.rfl ih

/-- A script that is performed comes to its end. -/
theorem Checked.ends {ends : σ → Prop} {acts : List α} {s : σ}
    (h : Checked perform needs ends acts s) : ends (performAll perform acts s) := by
  induction acts generalizing s with
  | nil => exact h
  | cons a rest ih => exact ih h.2

end
end FastdlMm
