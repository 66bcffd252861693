import Mathlib.Logic.Relation
import FastdlMm.Files.PathResolver

namespace FastdlMm.PathResolver

/-- The nonempty pieces between slashes. -/
def pieces (input : Text) : List Text := (input.splitOn '/').filter (· ≠ [])

/-- A request path that is safe to look up below the root. -/
structure SafePath (input : Text) : Prop where
  rooted : input.head? = some '/'
  short : input.length ≤ 2048
  bytes : ∀ c ∈ input, 0x20 ≤ c.toNat ∧ c.toNat ≠ 0x7f ∧ c ≠ '\x5c' ∧ c ≠ ':' ∧ c ≠ '?' ∧ c ≠ '#'
  depth : 1 ≤ (pieces input).length ∧ (pieces input).length ≤ 12
  plain : ∀ piece ∈ pieces input, piece.length ≤ 255 ∧ piece ≠ ['.'] ∧ piece ≠ ['.', '.']

theorem unsafeByte_eq_false_iff (c : Char) : unsafeByte c = false ↔
    0x20 ≤ c.toNat ∧ c.toNat ≠ 0x7f ∧ c ≠ '\x5c' ∧ c ≠ ':' ∧ c ≠ '?' ∧ c ≠ '#' := by
  have hslash : c.toNat = 0x5c ↔ c = '\x5c' := Char.toNat_inj (d := '\x5c')
  simp only [unsafeByte, Bool.or_eq_false_iff, decide_eq_false_iff_not, hslash, Nat.not_lt,
    and_assoc]

/-- The loop keeps the nonempty pieces, if none of them is improper and there is room for all. -/
theorem collectComponents_iff {components : List Name} (hroom : components.length ≤ 12)
    (parts : List Text) (relative : List Name) :
    collectComponents components parts = some relative ↔
      (relative = components ++ parts.filter (· ≠ []) ∧ relative.length ≤ 12) ∧
        ∀ piece ∈ parts.filter (· ≠ []),
          piece.length ≤ 255 ∧ piece ≠ ['.'] ∧ piece ≠ ['.', '.'] := by
  induction parts generalizing components with
  | nil =>
    simp only [collectComponents, Option.some.injEq, List.filter_nil, List.append_nil,
      List.not_mem_nil, false_implies, implies_true, and_true]
    constructor
    · intro heq
      subst heq
      exact ⟨rfl, hroom⟩
    · exact fun h => h.1.symm
  | cons piece rest ih =>
    by_cases hnil : piece = []
    · subst hnil
      have hmany : ¬ 12 < components.length := by omega
      simpa [collectComponents, hmany] using ih hroom
    · have hkeep : (piece :: rest).filter (· ≠ []) = piece :: rest.filter (· ≠ []) := by
        rw [List.filter_cons_of_pos (by simpa using hnil)]
      have hshape : components ++ piece :: rest.filter (· ≠ []) =
          components ++ [piece] ++ rest.filter (· ≠ []) := by
        rw [List.append_assoc, List.singleton_append]
      rw [hkeep, hshape, List.forall_mem_cons]
      simp only [collectComponents, if_neg hnil]
      by_cases hbad : piece = ['.'] ∨ piece = ['.', '.'] ∨ 255 < piece.length
      · rw [if_pos ⟨hnil, hbad⟩]
        apply iff_of_false (by simp)
        intro h
        obtain ⟨-, ⟨hlength, hdot, hdots⟩, -⟩ := h
        obtain hbad | hbad | hbad := hbad
        · exact hdot hbad
        · exact hdots hbad
        · omega
      · have hproper : piece.length ≤ 255 ∧ piece ≠ ['.'] ∧ piece ≠ ['.', '.'] := by
          obtain ⟨hdot, hdots, hlength⟩ := not_or.mp hbad |>.imp_right not_or.mp
          exact ⟨by omega, hdot, hdots⟩
        rw [if_neg fun h => hbad h.2]
        by_cases hmany : 12 < (components ++ [piece]).length
        · rw [if_pos hmany]
          apply iff_of_false (by simp)
          intro h
          obtain ⟨⟨heq, hlength⟩, -⟩ := h
          rw [heq, List.length_append] at hlength
          omega
        · rw [if_neg hmany, ih (Nat.not_lt.mp hmany)]
          exact and_congr_right fun _ => (and_iff_right hproper).symm

theorem validate_input (raw : Text) : raw.takeWhile (fun c => c.toNat ≠ 0) = cString raw := by
  have hzero (c : Char) : c.toNat = 0 ↔ c = '\x00' := Char.toNat_inj (d := '\x00')
  simp only [cString, ne_eq, hzero]

/-- The slash in front leaves no piece. -/
theorem pieces_rooted {input : Text} (h : input.head? = some '/') :
    (input.tail.splitOn '/').filter (· ≠ []) = pieces input := by
  obtain ⟨rest, rfl⟩ := List.head?_eq_some_iff.mp h
  have hsplit : ('/' :: rest).splitOn '/' = [] :: rest.splitOn '/' := by
    rw [← List.nil_append ('/' :: rest), List.splitOn_append_cons_self, List.splitOn_nil,
      List.singleton_append]
  rw [pieces, hsplit, List.tail_cons]
  rfl

/-- `validate` accepts exactly the safe paths, and answers with their pieces. -/
theorem validate_iff (raw : Text) (relative : Path) :
    validate raw = some relative ↔ SafePath (cString raw) ∧ relative = pieces (cString raw) := by
  dsimp only [validate]
  rw [validate_input]
  generalize cString raw = input
  rw [Option.ite_none_left_eq_some, Option.ite_none_left_eq_some, Option.filter_eq_some_iff,
    collectComponents_iff (Nat.zero_le _), List.nil_append]
  have hbytes : ¬ input.any unsafeByte = true ↔ ∀ c ∈ input, unsafeByte c = false := by
    simp only [List.any_eq_true, not_exists, not_and, Bool.not_eq_true]
  simp only [hbytes, unsafeByte_eq_false_iff, decide_eq_true_eq]
  constructor
  · intro h
    obtain ⟨hopen, hclean, ⟨⟨rfl, hdepth⟩, hplain⟩, hsome⟩ := h
    obtain ⟨-, hshort, hrooted⟩ := not_or.mp hopen |>.imp_right not_or.mp
    have hrooted : input.head? = some '/' := not_not.mp hrooted
    rw [pieces_rooted hrooted] at hdepth hplain hsome ⊢
    exact ⟨⟨hrooted, Nat.not_lt.mp hshort, hclean,
      ⟨List.length_pos_iff.mpr hsome, hdepth⟩, hplain⟩, rfl⟩
  · intro h
    obtain ⟨hsafe, rfl⟩ := h
    rw [pieces_rooted hsafe.rooted]
    have hne : input ≠ [] := by
      intro hnil
      have hrooted := hsafe.rooted
      rw [hnil] at hrooted
      cases hrooted
    have hlong : ¬ 2048 < input.length := Nat.not_lt.mpr hsafe.short
    exact ⟨by simp [hne, hlong, hsafe.rooted], hsafe.bytes, ⟨⟨rfl, hsafe.depth.2⟩, hsafe.plain⟩,
      List.length_pos_iff.mp hsafe.depth.1⟩

/-- One repeated slash more, or one more at the end. -/
inductive SlashMore : Text → Text → Prop
  | repeated (before after : Text) :
      SlashMore (before ++ '/' :: after) (before ++ '/' :: '/' :: after)
  | trailing (before : Text) : SlashMore before (before ++ ['/'])

/-- The same up to repeated and trailing slashes. -/
def Respaced : Text → Text → Prop := Relation.EqvGen SlashMore

/-- What `validate` looks at, the length apart, is the same of two inputs. -/
structure Alike (input input' : Text) : Prop where
  parts : pieces input = pieces input'
  bytes : ∀ c, c ∈ input ∧ c ≠ '/' ↔ c ∈ input' ∧ c ≠ '/'
  rooted : pieces input ≠ [] → input.head? = input'.head?

theorem pieces_slash (before after : Text) :
    pieces (before ++ '/' :: after) = pieces before ++ pieces after := by
  rw [pieces, List.splitOn_append_cons_self, List.filter_append, pieces, pieces]

theorem SlashMore.alike {input input' : Text} (h : SlashMore input input') :
    Alike input input' := by
  cases h with
  | repeated before after =>
    have hslash : pieces ('/' :: after) = pieces after := pieces_slash [] after
    refine ⟨?_, fun c => by simp, fun _ => ?_⟩
    · rw [pieces_slash, pieces_slash, hslash]
    · cases before with
      | nil => rfl
      | cons c before => rfl
  | trailing =>
    have hend : pieces (input ++ ['/']) = pieces input := by
      rw [pieces_slash]
      exact List.append_nil _
    refine ⟨hend.symm, fun c => ?_, fun hsome => ?_⟩
    · simp only [List.mem_append, List.mem_singleton, or_and_right, and_not_self, or_false]
    · cases input with
      | nil => exact absurd rfl hsome
      | cons c before => rfl

theorem Respaced.alike {input input' : Text} (h : Respaced input input') : Alike input input' := by
  induction h with
  | rel a b hmore => exact hmore.alike
  | refl a => exact ⟨rfl, fun _ => Iff.rfl, fun _ => rfl⟩
  | symm a b _ ih =>
    exact ⟨ih.parts.symm, fun c => (ih.bytes c).symm, fun hsome =>
      (ih.rooted (ih.parts ▸ hsome)).symm⟩
  | trans a b c _ _ ih ih' =>
    exact ⟨ih.parts.trans ih'.parts, fun x => (ih.bytes x).trans (ih'.bytes x), fun hsome =>
      (ih.rooted hsome).trans (ih'.rooted (ih.parts ▸ hsome))⟩

theorem SafePath.of_alike {input input' : Text} (hsafe : SafePath input) (h : Alike input input')
    (hshort : input'.length ≤ 2048) : SafePath input' := by
  have hsome : pieces input ≠ [] := List.length_pos_iff.mp hsafe.depth.1
  refine ⟨(h.rooted hsome).symm.trans hsafe.rooted, hshort, fun c hc => ?_, h.parts ▸ hsafe.depth,
    h.parts ▸ hsafe.plain⟩
  by_cases hslash : c = '/'
  · rw [hslash]
    decide
  · exact hsafe.bytes c ((h.bytes c).mpr ⟨hc, hslash⟩).1

theorem validate_respaced {raw raw' : Text} (h : Respaced (cString raw) (cString raw'))
    (hshort : (cString raw).length ≤ 2048) (hshort' : (cString raw').length ≤ 2048) :
    validate raw = validate raw' := by
  apply Option.ext
  intro relative
  have halike := h.alike
  have halike' := Respaced.alike (h.symm _ _)
  rw [validate_iff, validate_iff, halike.parts]
  apply and_congr_left
  intro _
  constructor
  · exact fun hsafe => hsafe.of_alike halike hshort'
  · exact fun hsafe => hsafe.of_alike halike' hshort

/-- `validate` accepts exactly the safe request paths, and repeated or trailing slashes do not
matter to it. -/
theorem validate_spec :
    (∀ raw relative,
      validate raw = some relative ↔ SafePath (cString raw) ∧ relative = pieces (cString raw)) ∧
    ∀ raw raw', Respaced (cString raw) (cString raw') → (cString raw).length ≤ 2048 →
      (cString raw').length ≤ 2048 → validate raw = validate raw' :=
  ⟨validate_iff, fun _ _ h hshort hshort' => validate_respaced h hshort hshort'⟩

theorem validate_spec_maps : validate (text "/maps/a.bsp") = validate (text "/maps//a.bsp/") := by
  have hraw : cString (text "/maps/a.bsp") = text "/maps" ++ '/' :: text "a.bsp" := by
    decide +kernel
  have hraw' : cString (text "/maps//a.bsp/") =
      text "/maps" ++ '/' :: '/' :: text "a.bsp" ++ ['/'] := by
    decide +kernel
  have hrespaced : Respaced (cString (text "/maps/a.bsp")) (cString (text "/maps//a.bsp/")) := by
    rw [hraw, hraw']
    exact .trans _ _ _ (.rel _ _ (.repeated _ _)) (.rel _ _ (.trailing _))
  exact validate_spec.2 _ _ hrespaced (by decide +kernel) (by decide +kernel)

end FastdlMm.PathResolver
