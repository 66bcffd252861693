import FastdlMm.Cache.Artifacts
import FastdlMm.Server.Negotiation

namespace FastdlMm

open CompressionCache

namespace FastdlServer

/-- The mark of a gzip tag cannot be read as a digit of the number before it. -/
theorem etag_end_inj {m n : Nat} {gzip gzip' : Bool}
    (h : hexadecimal m ++ (if gzip then text "-gz" else []) =
      hexadecimal n ++ (if gzip' then text "-gz" else [])) : m = n ∧ gzip = gzip' := by
  have hmark : text "-gz" = ['-', 'g', 'z'] := text_eq rfl
  have hno (k : Nat) : '-' ∉ hexadecimal k := not_mem_hexadecimal (by decide) k
  rw [hmark] at h
  cases gzip with
  | false =>
    cases gzip' with
    | false =>
      simp only [Bool.false_eq_true, if_false, List.append_nil] at h
      exact ⟨hexadecimal_inj h, rfl⟩
    | true =>
      simp only [Bool.false_eq_true, if_false, if_true, List.append_nil] at h
      exact absurd (h ▸ by simp) (hno m)
  | true =>
    cases gzip' with
    | false =>
      simp only [Bool.false_eq_true, if_false, if_true, List.append_nil] at h
      exact absurd (h ▸ by simp) (hno n)
    | true =>
      simp only [if_true] at h
      exact ⟨hexadecimal_inj (List.append_cancel_right h), rfl⟩

theorem makeEtag_inj {file file' : OpenedFileInfo} {gzip gzip' : Bool}
    (h : makeEtag file gzip = makeEtag file' gzip') :
    file.size = file'.size ∧ file.modifiedIdentity = file'.modifiedIdentity ∧
      file.fileIdentity = file'.fileIdentity ∧ gzip = gzip' := by
  have hno (n : Nat) : '-' ∉ hexadecimal n := not_mem_hexadecimal (by decide) n
  have hclosed := List.append_cancel_right h
  simp only [List.append_assoc, List.cons_append, List.nil_append, List.cons.injEq, true_and]
    at hclosed
  obtain ⟨hsize, hmore⟩ := append_cons_inj_left (hno _) (hno _) hclosed
  obtain ⟨hmodified, hend⟩ := append_cons_inj_left (hno _) (hno _) hmore
  obtain ⟨hfile, hgzip⟩ := etag_end_inj hend
  exact ⟨hexadecimal_inj hsize, hexadecimal_inj hmodified, hfile, hgzip⟩

end FastdlServer

open FastdlServer

/-- No two sources or opened files share a text by the way it is put together. -/
theorem identities_inj :
    (∀ source source', sourceIdentity source = sourceIdentity source' ↔
      source.path = source'.path ∧ source.info.size = source'.info.size ∧
        source.info.modifiedIdentity = source'.info.modifiedIdentity ∧
        source.info.fileIdentity = source'.info.fileIdentity) ∧
    (∀ maxBytes maxBytes' source source',
      skipIdentity maxBytes source = skipIdentity maxBytes' source' ↔
        source.path = source'.path ∧ source.info.size = source'.info.size ∧
          source.info.modifiedIdentity = source'.info.modifiedIdentity ∧
          source.info.fileIdentity = source'.info.fileIdentity ∧ maxBytes = maxBytes') ∧
    (∀ file file' gzip gzip', makeEtag file gzip = makeEtag file' gzip' ↔
      file.size = file'.size ∧ file.modifiedIdentity = file'.modifiedIdentity ∧
        file.fileIdentity = file'.fileIdentity ∧ gzip = gzip') := by
  refine ⟨?_, ?_, ?_⟩
  · intro source source'
    constructor
    · exact sourceIdentity_inj
    · intro hsame
      obtain ⟨hpath, hsize, hmodified, hfile⟩ := hsame
      rw [sourceIdentity, hpath, hsize, hmodified, hfile, sourceIdentity]
  · intro maxBytes maxBytes' source source'
    constructor
    · intro h
      obtain ⟨hids, hmax⟩ := skipIdentity_inj h
      obtain ⟨hpath, hsize, hmodified, hfile⟩ := sourceIdentity_inj hids
      exact ⟨hpath, hsize, hmodified, hfile, hmax⟩
    · intro hsame
      obtain ⟨hpath, hsize, hmodified, hfile, hmax⟩ := hsame
      rw [skipIdentity, sourceIdentity, hpath, hsize, hmodified, hfile, hmax, skipIdentity,
        sourceIdentity]
  · intro file file' gzip gzip'
    constructor
    · exact makeEtag_inj
    · intro hsame
      obtain ⟨hsize, hmodified, hfile, hgzip⟩ := hsame
      rw [makeEtag, hsize, hmodified, hfile, hgzip, makeEtag]

end FastdlMm
