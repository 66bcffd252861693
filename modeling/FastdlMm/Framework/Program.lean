import Mathlib.Tactic.Common

namespace FastdlMm

/-- A thread as the questions it asks its surroundings, with what it does next on every answer. -/
inductive Program (ι : Type) (answer : ι → Type) (α : Type) where
  | done (a : α)
  | ask (q : ι) (next : answer q → Program ι answer α)

namespace Program

variable {ι : Type} {answer : ι → Type} {α β : Type}

def bind : Program ι answer α → (α → Program ι answer β) → Program ι answer β
  | .done a, f => f a
  | .ask q next, f => .ask q fun x => (next x).bind f

instance : Monad (Program ι answer) where
  pure := .done
  bind := bind

/-- One question, with its answer as the result. -/
def query (q : ι) : Program ι answer (answer q) := .ask q .done

/-- Every question of the program is an allowed one. -/
def Asks (allowed : ι → Prop) : Program ι answer α → Prop
  | .done _ => True
  | .ask q next => allowed q ∧ ∀ x, (next x).Asks allowed

theorem Asks.bind {allowed : ι → Prop} {p : Program ι answer α} {f : α → Program ι answer β}
    (hp : p.Asks allowed) (hf : ∀ a, (f a).Asks allowed) : (p >>= f).Asks allowed := by
  induction p with
  | done a => exact hf a
  | ask q next ih => exact ⟨hp.1, fun x => ih x (hp.2 x)⟩

theorem Asks.query {allowed : ι → Prop} {q : ι} {f : answer q → Program ι answer β}
    (hq : allowed q) (hf : ∀ x, (f x).Asks allowed) : (query q >>= f).Asks allowed := ⟨hq, hf⟩

theorem Asks.ite {allowed : ι → Prop} {c : Prop} [Decidable c] {p p' : Program ι answer α}
    (hp : p.Asks allowed) (hp' : p'.Asks allowed) : (if c then p else p').Asks allowed := by
  split_ifs
  · exact hp
  · exact hp'

theorem Asks.mono {allowed allowed' : ι → Prop} {p : Program ι answer α} (hp : p.Asks allowed)
    (h : ∀ q, allowed q → allowed' q) : p.Asks allowed' := by
  induction p with
  | done a => trivial
  | ask q next ih => exact ⟨h q hp.1, fun x => ih x (hp.2 x)⟩

/-- With fitting answers only, the program can only end in `post`. -/
def Ends (fits : (q : ι) → answer q → Prop) (post : α → Prop) : Program ι answer α → Prop
  | .done a => post a
  | .ask q next => ∀ x, fits q x → (next x).Ends fits post

theorem Ends.bind {fits : (q : ι) → answer q → Prop} {mid : α → Prop} {post : β → Prop}
    {p : Program ι answer α} {f : α → Program ι answer β} (hp : p.Ends fits mid)
    (hf : ∀ a, mid a → (f a).Ends fits post) : (p >>= f).Ends fits post := by
  induction p with
  | done a => exact hf a hp
  | ask q next ih => exact fun x hx => ih x (hp x hx)

theorem ends_trivial (fits : (q : ι) → answer q → Prop) (p : Program ι answer α) :
    p.Ends fits fun _ => True := by
  induction p with
  | done a => trivial
  | ask q next ih => exact fun x _ => ih x

theorem Ends.query {fits : (q : ι) → answer q → Prop} {post : β → Prop} {q : ι}
    {f : answer q → Program ι answer β} (h : ∀ x, fits q x → (f x).Ends fits post) :
    (query q >>= f).Ends fits post := h

variable {σ : Type} (moves : (q : ι) → σ → answer q → σ → Prop)

/-- Where `moves` says how a question is answered and what that does to the state, every step from
`s` on keeps to `guarantee`, and the program can only end in `post`. -/
def Safe (guarantee : ι → σ → σ → Prop) (post : α → σ → Prop) : Program ι answer α → σ → Prop
  | .done a, s => post a s
  | .ask q next, s =>
      ∀ x s', moves q s x s' → guarantee q s s' ∧ (next x).Safe guarantee post s'

variable {moves} {guarantee : ι → σ → σ → Prop}

theorem Safe.mono {moves' : (q : ι) → σ → answer q → σ → Prop} {guarantee' : ι → σ → σ → Prop}
    {post post' : α → σ → Prop} {p : Program ι answer α} {s : σ}
    (hp : p.Safe moves guarantee post s) (hm : ∀ q s x s', moves' q s x s' → moves q s x s')
    (hg : ∀ q s s', guarantee q s s' → guarantee' q s s') (h : ∀ a s', post a s' → post' a s') :
    p.Safe moves' guarantee' post' s := by
  induction p generalizing s with
  | done a => exact h a s hp
  | ask q next ih =>
    intro x s' hx
    obtain ⟨hstep, hnext⟩ := hp x s' (hm q s x s' hx)
    exact ⟨hg q s s' hstep, ih x hnext⟩

/-- Two views of the same program hold together. -/
theorem Safe.and {guarantee' : ι → σ → σ → Prop} {post post' : α → σ → Prop}
    {p : Program ι answer α} {s : σ} (hp : p.Safe moves guarantee post s)
    (hp' : p.Safe moves guarantee' post' s) :
    p.Safe moves (fun q s s' => guarantee q s s' ∧ guarantee' q s s')
      (fun a s' => post a s' ∧ post' a s') s := by
  induction p generalizing s with
  | done a => exact ⟨hp, hp'⟩
  | ask q next ih =>
    intro x s' hx
    obtain ⟨hstep, hnext⟩ := hp x s' hx
    obtain ⟨hstep', hnext'⟩ := hp' x s' hx
    exact ⟨⟨hstep, hstep'⟩, ih x hnext hnext'⟩

theorem Safe.bind {mid : α → σ → Prop} {post : β → σ → Prop} {p : Program ι answer α}
    {f : α → Program ι answer β} {s : σ} (hp : p.Safe moves guarantee mid s)
    (hf : ∀ a s', mid a s' → (f a).Safe moves guarantee post s') :
    (p >>= f).Safe moves guarantee post s := by
  induction p generalizing s with
  | done a => exact hf a s hp
  | ask q next ih =>
    intro x s' hm
    obtain ⟨hg, hnext⟩ := hp x s' hm
    exact ⟨hg, ih x hnext⟩

theorem Safe.query {post : β → σ → Prop} {q : ι} {f : answer q → Program ι answer β} {s : σ}
    (h : ∀ x s', moves q s x s' → guarantee q s s' ∧ (f x).Safe moves guarantee post s') :
    (query q >>= f).Safe moves guarantee post s := h

/-- What holds of every allowed question holds of a program that asks no others. -/
theorem Asks.safe {allowed : ι → Prop} {inv : σ → Prop} {p : Program ι answer α}
    (hp : p.Asks allowed)
    (hstep : ∀ q s x s', allowed q → inv s → moves q s x s' → guarantee q s s' ∧ inv s')
    {s : σ} (hs : inv s) : p.Safe moves guarantee (fun _ => inv) s := by
  induction p generalizing s with
  | done a => exact hs
  | ask q next ih =>
    intro x s' hm
    obtain ⟨hg, hinv⟩ := hstep q s x s' hp.1 hs hm
    exact ⟨hg, ih x (hp.2 x) hinv⟩

/-- Where every question that is asked has an answer, the program ends somewhere. -/
theorem Safe.exists_end {post : α → σ → Prop} {p : Program ι answer α} {s : σ}
    (hp : p.Safe moves guarantee post s) (hlive : p.Asks fun q => ∀ s, ∃ x s', moves q s x s') :
    ∃ a s', post a s' := by
  induction p generalizing s with
  | done a => exact ⟨a, s, hp⟩
  | ask q next ih =>
    obtain ⟨x, s', hm⟩ := hlive.1 s
    exact ih x (hp x s' hm).2 (hlive.2 x)

end Program
end FastdlMm
