import FastdlMm.Framework.Separated
import FastdlMm.Server.Negotiation

namespace FastdlMm.FastdlServer

def isControl (c : Char) : Bool := c.toNat < 32 || c.toNat = 127

/-- An entity tag as a client may send it. -/
structure EntityTag where
  weak : Bool
  content : Text
  plain : ∀ c ∈ content, c ≠ '"' ∧ isControl c = false

namespace EntityTag

/-- The tag without its mark of weakness. -/
def strong (t : EntityTag) : Text := ['"'] ++ t.content ++ ['"']

def written (t : EntityTag) : Text := (if t.weak then ['W', '/'] else []) ++ t.strong

/-- Between two commas of the tag there is an asterisk and nothing else but blanks. -/
def Starred (t : EntityTag) : Prop :=
  ∃ part ∈ (t.content.splitOn ',').tail.dropLast, trimAscii part = ['*']

end EntityTag

/-- `raw` is the list of the tags, with commas and blanks between them. -/
def ListsTags (tags : List EntityTag) (raw : Text) : Prop :=
  ∃ written, List.Forall₂ (fun t w => Padded (EntityTag.written t) w) tags written ∧
    raw = [','].intercalate written

/-- What `etagMatches` asks of each element between commas. -/
def ElementMatches (etag element : Text) : Prop :=
  trimAscii element = ['*'] ∨ strongTag (trimAscii element) = etag

theorem etagMatches_iff {raw etag : Text} :
    etagMatches raw etag = true ↔ ∃ element ∈ raw.splitOn ',', ElementMatches etag element := by
  have hstar : text "*" = ['*'] := text_eq rfl
  simp only [etagMatches, hstar, List.any_eq_true, Bool.or_eq_true, decide_eq_true_eq,
    ElementMatches]

/-- A tag of this server has both its quotes and no comma. -/
theorem makeEtag_shape (file : OpenedFileInfo) (gzip : Bool) :
    2 ≤ (makeEtag file gzip).count '"' ∧ ',' ∉ makeEtag file gzip := by
  have hhex (n : Nat) : ',' ∉ hexadecimal n := not_mem_hexadecimal (by decide) n
  have hgz : ',' ∉ (if gzip then text "-gz" else []) := by
    cases gzip with
    | false => simp
    | true =>
      rw [if_pos rfl, text_eq rfl]
      decide
  constructor
  · rw [makeEtag]
    simp only [List.count_append, List.count_singleton_self]
    omega
  · simp only [makeEtag, List.mem_append, not_or, List.mem_singleton]
    exact ⟨⟨⟨⟨⟨⟨⟨by decide, hhex _⟩, by decide⟩, hhex _⟩, by decide⟩, hhex _⟩, hgz⟩, by decide⟩

theorem strongTag_count_le {c : Char} (hc : isBlank c = false) (candidate : Text) :
    (strongTag candidate).count c ≤ candidate.count c := by
  unfold strongTag
  split_ifs
  · rw [count_trimAscii hc]
    exact (List.drop_sublist 2 candidate).count_le c
  · exact Nat.le_refl _

/-- A piece with one quote at most is no tag of this server. -/
theorem strongTag_ne {etag piece : Text} (hetag : 2 ≤ etag.count '"')
    (h : piece.count '"' ≤ 1) : strongTag (trimAscii piece) ≠ etag := by
  intro heq
  have hle := strongTag_count_le (by decide : isBlank '"' = false) (trimAscii piece)
  rw [heq, count_trimAscii (by decide)] at hle
  omega

theorem not_star_of_quote {piece : Text} (h : '"' ∈ piece) : trimAscii piece ≠ ['*'] := by
  intro heq
  have hcount := count_trimAscii (by decide : isBlank '"' = false) piece
  have hpos := List.count_pos_iff.mpr h
  rw [heq] at hcount
  have hzero : List.count '"' ['*'] = 0 := by decide
  omega

namespace EntityTag

theorem bare_strong (t : EntityTag) : Bare t.strong := by
  constructor
  · intro c hc
    cases hc
    decide
  · intro c hc
    rw [strong, List.getLast?_append] at hc
    cases hc
    decide

theorem bare_written (t : EntityTag) : Bare t.written := by
  constructor
  · intro c hc
    unfold written at hc
    split_ifs at hc
    · cases hc
      decide
    · exact t.bare_strong.1 c hc
  · intro c hc
    apply t.bare_strong.2 c
    rw [written, List.getLast?_append] at hc
    cases hlast : t.strong.getLast? with
    | none => simp [strong] at hlast
    | some d => rwa [hlast] at hc

theorem strongTag_written (t : EntityTag) : strongTag t.written = t.strong := by
  have hupper : text "W/" = ['W', '/'] := text_eq rfl
  have hlower : text "w/" = ['w', '/'] := text_eq rfl
  have htrim : trimAscii t.strong = t.strong := trimAscii_eq_self t.bare_strong.1 t.bare_strong.2
  cases hweak : t.weak with
  | true => simp [strongTag, written, hweak, hupper, htrim]
  | false => simp [strongTag, written, hweak, hupper, hlower, strong]

/-- What stands before the content of a tag in a list, with blanks in front. -/
private theorem front_facts (t : EntityTag) {before : Text} (h : ∀ c ∈ before, isBlank c) :
    ',' ∉ before ++ (if t.weak then ['W', '/'] else []) ++ ['"'] ∧
      (before ++ (if t.weak then ['W', '/'] else []) ++ ['"']).count '"' = 1 := by
  have hcomma : ',' ∉ before := fun hmem => by cases h _ hmem
  have hquote : '"' ∉ before := fun hmem => by cases h _ hmem
  have hzero : before.count '"' = 0 := List.count_eq_zero_of_not_mem hquote
  cases t.weak <;> simp [hcomma, hzero]

private theorem back_facts {after : Text} (h : ∀ c ∈ after, isBlank c) :
    ',' ∉ ['"'] ++ after ∧ (['"'] ++ after).count '"' = 1 := by
  have hcomma : ',' ∉ after := fun hmem => by cases h _ hmem
  have hquote : '"' ∉ after := fun hmem => by cases h _ hmem
  have hzero : after.count '"' = 0 := List.count_eq_zero_of_not_mem hquote
  simp [hcomma, hzero]

/-- A written tag is a front with one quote, the content, and a back with the other quote. -/
private theorem written_shape {t : EntityTag} {w : Text} (hpad : Padded t.written w) :
    ∃ front back, w = front ++ t.content ++ back ∧ ',' ∉ front ∧ ',' ∉ back ∧
      front.count '"' = 1 ∧ back.count '"' = 1 := by
  obtain ⟨before, after, hw, hbefore, hafter⟩ := hpad
  obtain ⟨hfront, hfrontq⟩ := t.front_facts hbefore
  obtain ⟨hback, hbackq⟩ := back_facts hafter
  refine ⟨_, _, ?_, hfront, hback, hfrontq, hbackq⟩
  rw [hw, written, strong]
  simp

/-- A tag without a comma stays whole, and only its equal matches it. -/
private theorem elementMatches_only {t : EntityTag} {w etag only : Text}
    (hpad : Padded t.written w) (hsplit : t.content.splitOn ',' = [only]) :
    (∃ piece ∈ w.splitOn ',', ElementMatches etag piece) ↔ t.strong = etag := by
  have htrim : trimAscii w = t.written := trimAscii_eq hpad t.bare_written
  obtain ⟨front, back, hw, hfront, hback, hfrontq, _⟩ := written_shape hpad
  have hwhole : w.splitOn ',' = [w] := by
    rw [hw]
    exact splitOn_surround_only hfront hback hsplit
  have hquote : '"' ∈ w := by
    have hmem : '"' ∈ front := List.count_pos_iff.mp (by omega)
    rw [hw]
    simp [hmem]
  have hstar : t.written ≠ ['*'] := htrim ▸ not_star_of_quote hquote
  simp only [hwhole, List.mem_singleton, exists_eq_left, ElementMatches, htrim, hstar, false_or,
    t.strongTag_written]

/-- Of a tag with commas only a part between two of them can match, as an asterisk. -/
private theorem elementMatches_parts {t : EntityTag} {w etag first last : Text} {inner : List Text}
    (hpad : Padded t.written w) (hquotes : 2 ≤ etag.count '"')
    (hsplit : t.content.splitOn ',' = first :: inner ++ [last]) :
    (∃ piece ∈ w.splitOn ',', ElementMatches etag piece) ↔
      ∃ part ∈ inner, trimAscii part = ['*'] := by
  obtain ⟨front, back, hw, hfront, hback, hfrontq, hbackq⟩ := written_shape hpad
  have hpieces : w.splitOn ',' = (front ++ first) :: inner ++ [last ++ back] := by
    rw [hw]
    exact splitOn_surround hfront hback hsplit
  have hplain {part : Text} (hpart : part ∈ first :: inner ++ [last]) : part.count '"' = 0 := by
    rw [← hsplit] at hpart
    apply List.count_eq_zero_of_not_mem
    intro hmem
    exact (t.plain _ (mem_of_splitOn hpart _ hmem).1).1 rfl
  have houter {piece : Text} (h : piece.count '"' = 1) : ¬ ElementMatches etag piece := by
    rintro (hstar | htag)
    · exact not_star_of_quote (List.count_pos_iff.mp (by omega)) hstar
    · exact strongTag_ne hquotes (by omega) htag
  have hfirst : ¬ ElementMatches etag (front ++ first) := by
    apply houter
    rw [List.count_append, hfrontq, hplain (by simp)]
  have hlast : ¬ ElementMatches etag (last ++ back) := by
    apply houter
    rw [List.count_append, hbackq, hplain (by simp)]
  have hinner : ∀ part ∈ inner, (ElementMatches etag part ↔ trimAscii part = ['*']) := by
    intro part hpart
    have hnot : strongTag (trimAscii part) ≠ etag := by
      apply strongTag_ne hquotes
      have := hplain (List.mem_append_left _ (List.mem_cons_of_mem first hpart))
      omega
    simp only [ElementMatches, hnot, or_false]
  rw [hpieces]
  constructor
  · rintro ⟨piece, hpiece, hmatch⟩
    simp only [List.cons_append, List.mem_cons, List.mem_append, List.not_mem_nil,
      or_false] at hpiece
    rcases hpiece with rfl | hpiece | rfl
    · exact absurd hmatch hfirst
    · exact ⟨piece, hpiece, (hinner piece hpiece).mp hmatch⟩
    · exact absurd hmatch hlast
  · rintro ⟨part, hpart, hstar⟩
    exact ⟨part, by simp [hpart], (hinner part hpart).mpr hstar⟩

/-- The pieces of a written tag match when the tag does, or when one of them is an asterisk. -/
theorem elementMatches_iff {t : EntityTag} {w etag : Text} (hpad : Padded t.written w)
    (hquotes : 2 ≤ etag.count '"') (hcomma : ',' ∉ etag) :
    (∃ piece ∈ w.splitOn ',', ElementMatches etag piece) ↔ t.strong = etag ∨ t.Starred := by
  rcases singleton_or_ends (List.splitOn_ne_nil ',' t.content) with ⟨only, hsplit⟩ |
    ⟨first, inner, last, hsplit⟩
  · have hstarred : ¬ t.Starred := by
      rintro ⟨part, hpart, _⟩
      simp [hsplit] at hpart
    rw [elementMatches_only hpad hsplit]
    simp only [hstarred, or_false]
  · have hne : t.strong ≠ etag := by
      obtain ⟨rest, hcontent, _⟩ := exists_of_splitOn_cons (by simp) hsplit
      intro heq
      apply hcomma
      rw [← heq, strong, hcontent]
      simp
    rw [elementMatches_parts hpad hquotes hsplit]
    simp only [hne, false_or, Starred, hsplit, List.cons_append, List.tail_cons,
      List.dropLast_concat]

end EntityTag

/-- What `etagMatches` answers on a list of tags. -/
theorem etagMatches_listsTags {tags : List EntityTag} {raw etag : Text} (hne : tags ≠ [])
    (hlist : ListsTags tags raw) (hquotes : 2 ≤ etag.count '"') (hcomma : ',' ∉ etag) :
    etagMatches raw etag = true ↔
      (∃ t ∈ tags, t.strong = etag) ∨ ∃ t ∈ tags, t.Starred := by
  obtain ⟨written, hwritten, rfl⟩ := hlist
  have hne' : written ≠ [] := by
    rintro rfl
    cases hwritten
    exact hne rfl
  have htags := exists_mem_iff_of_forall₂ hwritten fun t _ w hpad =>
    (EntityTag.elementMatches_iff hpad hquotes hcomma).symm
  rw [etagMatches_iff, splitOn_intercalate_flatMap hne']
  constructor
  · rintro ⟨piece, hpiece, hmatch⟩
    obtain ⟨w, hw, hpiece⟩ := List.mem_flatMap.mp hpiece
    obtain ⟨t, ht, h | h⟩ := htags.mpr ⟨w, hw, piece, hpiece, hmatch⟩
    · exact .inl ⟨t, ht, h⟩
    · exact .inr ⟨t, ht, h⟩
  · intro h
    have hone : ∃ t ∈ tags, t.strong = etag ∨ t.Starred := by
      rcases h with ⟨t, ht, h⟩ | ⟨t, ht, h⟩
      · exact ⟨t, ht, .inl h⟩
      · exact ⟨t, ht, .inr h⟩
    obtain ⟨w, hw, piece, hpiece, hmatch⟩ := htags.mp hone
    exact ⟨piece, List.mem_flatMap.mpr ⟨w, hw, hpiece⟩, hmatch⟩

/-- A list is answered as it should be exactly when a tag of it equals, or no tag of it has a lone
asterisk between two commas. -/
theorem etagMatches_correct_iff {tags : List EntityTag} {raw : Text} (hne : tags ≠ [])
    (hlist : ListsTags tags raw) (file : OpenedFileInfo) (gzip : Bool) :
    (etagMatches raw (makeEtag file gzip) = true ↔ ∃ t ∈ tags, t.strong = makeEtag file gzip) ↔
      (∃ t ∈ tags, t.strong = makeEtag file gzip) ∨ ∀ t ∈ tags, ¬ t.Starred := by
  obtain ⟨hquotes, hcomma⟩ := makeEtag_shape file gzip
  have hanswer := etagMatches_listsTags hne hlist hquotes hcomma
  rw [hanswer]
  constructor
  · intro h
    by_cases hsome : ∃ t ∈ tags, t.strong = makeEtag file gzip
    · exact .inl hsome
    · refine .inr fun t ht hstarred => ?_
      exact hsome (h.mp (.inr ⟨t, ht, hstarred⟩))
  · rintro (hsome | hplain)
    · exact ⟨fun _ => hsome, fun _ => .inl hsome⟩
    · constructor
      · rintro (hsome | ⟨t, ht, hstarred⟩)
        · exact hsome
        · exact absurd hstarred (hplain t ht)
      · exact fun hsome => .inl hsome

/-- A small file for the runs below. -/
def smallFile : OpenedFileInfo := ⟨5, 1700000000, 1700000000000000000, 42⟩

/-- The tag `W/"a,b"`. -/
def weakTag : EntityTag := ⟨true, ['a', ',', 'b'], forall_of_all rfl⟩

/-- The tag of the small file. -/
def smallTag : EntityTag := ⟨false, text "5-17979cfe362a0000-2a", forall_of_all (by decide +kernel)⟩

/-- Of the two tags, one is that of the file and none is that of its compressed form. -/
theorem etagMatches_correct_iff_smallTag :
    etagMatches (text "W/\"a,b\" , \"5-17979cfe362a0000-2a\"") (makeEtag smallFile) = true ∧
      etagMatches (text "W/\"a,b\" , \"5-17979cfe362a0000-2a\"") (makeEtag smallFile true) =
        false := by
  have hlist : ListsTags [weakTag, smallTag] (text "W/\"a,b\" , \"5-17979cfe362a0000-2a\"") :=
    ⟨[weakTag.written ++ [' '], ' ' :: smallTag.written],
      .cons ⟨[], [' '], by simp, by simp, by simp [isBlank]⟩
        (.cons ⟨[' '], [], by simp, by simp [isBlank], by simp⟩ .nil), by decide +kernel⟩
  have hplain : ∀ t ∈ [weakTag, smallTag], ¬ t.Starred := by
    unfold EntityTag.Starred
    decide +kernel
  have hown : ∃ t ∈ [weakTag, smallTag], t.strong = makeEtag smallFile := by decide +kernel
  have hnone : ¬ ∃ t ∈ [weakTag, smallTag], t.strong = makeEtag smallFile true := by decide +kernel
  have hplainFile := etagMatches_correct_iff (List.cons_ne_nil _ _) hlist smallFile false
  have hgzipFile := etagMatches_correct_iff (List.cons_ne_nil _ _) hlist smallFile true
  refine ⟨(hplainFile.mpr (.inl hown)).mpr hown, ?_⟩
  rw [Bool.eq_false_iff]
  exact fun hmatch => hnone ((hgzipFile.mpr (.inr hplain)).mp hmatch)

/-- The tag `"a,*,b"`. -/
def commaTag : EntityTag := ⟨false, ['a', ',', '*', ',', 'b'], forall_of_all rfl⟩

theorem listsTags_commaTag : ListsTags [commaTag] commaTag.written :=
  ⟨[commaTag.written], .cons ⟨[], [], by simp, by simp, by simp⟩ .nil, by simp⟩

/-- The list `"a,*,b"` matches the tag of every file, equal or not. -/
theorem etagMatches_commaTag : ListsTags [commaTag] commaTag.written ∧
    etagMatches commaTag.written (makeEtag smallFile) = true ∧
      ¬ ∃ t ∈ [commaTag], t.strong = makeEtag smallFile := by
  obtain ⟨hquotes, hcomma⟩ := makeEtag_shape smallFile false
  have hstarred : commaTag.Starred := ⟨['*'], by decide, by decide⟩
  refine ⟨listsTags_commaTag, ?_, ?_⟩
  · exact (etagMatches_listsTags (by simp) listsTags_commaTag hquotes hcomma).mpr
      (.inr ⟨commaTag, by simp, hstarred⟩)
  · rintro ⟨t, ht, heq⟩
    cases List.mem_singleton.mp ht
    apply hcomma
    rw [← heq]
    decide

end FastdlMm.FastdlServer
