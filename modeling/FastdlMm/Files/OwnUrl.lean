import FastdlMm.Files.SecureFile
import FastdlMm.Files.UrlPath
import FastdlMm.Framework.RelativePath

namespace FastdlMm.PathResolver

/-- What `validate` finds in proper names that pass as a URL. -/
theorem of_validate_joined {below relative : Path} (hnamed : ∀ n ∈ below, '/' ∉ n ∧ '\x00' ∉ n)
    (h : validate ('/' :: joined below) = some relative) :
    SafePath ('/' :: joined below) ∧ relative = pieces ('/' :: joined below) := by
  have hzero : ∀ c ∈ '/' :: joined below, c ≠ '\x00' := by
    intro c hc heq
    subst heq
    rcases List.mem_cons.mp hc with hslash | hc
    · cases hslash
    · exact not_mem_joined (by decide) (fun n hn => (hnamed n hn).2) hc
  have hwhole : cString ('/' :: joined below) = '/' :: joined below :=
    List.takeWhile_eq_self_iff.mpr fun c hc => decide_eq_true (hzero c hc)
  have hsafe := (validate_iff _ _).mp h
  rwa [hwhole] at hsafe

/-- Proper names that pass as a URL come out as they are. -/
theorem validate_joined {below relative : Path} (hne : below ≠ [])
    (hplain : ∀ n ∈ below, Name.Plain n) (hnamed : ∀ n ∈ below, '/' ∉ n ∧ '\x00' ∉ n)
    (h : validate ('/' :: joined below) = some relative) : relative = below := by
  have hslash : pieces ('/' :: joined below) = pieces (joined below) := pieces_slash [] _
  rw [(of_validate_joined hnamed h).2, hslash, pieces,
    splitOn_joined hne fun n hn => (hnamed n hn).1]
  exact List.filter_eq_self.mpr fun n hn => by simpa using (hplain n hn).1

/-- The place that `resolve` answers with is a real one in a real directory below the root. -/
theorem resolve_real {r : PathResolver} {t : Tree} {url : Text} {maxBytes : Nat} {p : Path}
    (h : (r.resolve t url maxBytes).status = .ok ∧ (r.resolve t url maxBytes).path = p) :
    t.Real p ∧ ∃ n below, p = r.root ++ n :: below := by
  obtain ⟨relative, -, hlocate, hin, -⟩ := (resolve_ok r t url maxBytes p).mp h
  refine ⟨t.real_of_locate hlocate, ?_⟩
  obtain ⟨below, rfl⟩ := List.isPrefixOf_iff_prefix.mp hin
  cases below with
  | nil =>
    have hchosen := resolve_chosen h.1
    rw [h.2] at hchosen
    exact absurd (List.append_nil r.root) hchosen.strict
  | cons n below => exact ⟨n, below, rfl⟩

/-- A file that was found under one URL is found under its own place, if that passes as a URL. -/
theorem resolve_own {r : PathResolver} {t : Tree} {url : Text} {maxBytes : Nat} {p below : Path}
    (ht : t.Named) (h : (r.resolve t url maxBytes).status = .ok ∧
      (r.resolve t url maxBytes).path = p) (hp : p = r.root ++ below)
    (hvalid : validate ('/' :: joined below) ≠ none) :
    (r.resolve t ('/' :: joined below) maxBytes).status = .ok ∧
      (r.resolve t ('/' :: joined below) maxBytes).path = p := by
  obtain ⟨hreal, n, rest, hbelow⟩ := resolve_real h
  have hcons : below = n :: rest := List.append_cancel_left (hp.symm.trans hbelow)
  obtain ⟨relative, -, -, hin, hfile, ⟨hone, hmore⟩, hext⟩ := (resolve_ok r t url maxBytes p).mp h
  obtain ⟨relative', hrelative⟩ := Option.ne_none_iff_exists'.mp hvalid
  have hmem : ∀ m ∈ below, m ∈ p := fun m hm => hp ▸ List.mem_append_right _ hm
  have hown : relative' = below := validate_joined (by simp [hcons])
    (fun m hm => hreal.plain m (hmem m hm)) (fun m hm => hreal.named ht m (hmem m hm)) hrelative
  subst hown
  refine (resolve_ok r t _ maxBytes p).mpr
    ⟨relative', hrelative, hp ▸ hreal.locate, hin, hfile, ?_, hext⟩
  have hlen : (componentsUnder r.root p).length = relative'.length := by
    rw [hp, componentsUnder_append, List.length_map]
  by_cases h1 : relative.length = 1
  · have hlen₁ : relative'.length = 1 := hlen ▸ (hone h1).1
    exact ⟨fun _ => hone h1, fun hnot => absurd hlen₁ hnot⟩
  · have hlen₂ : 2 ≤ relative'.length := hlen ▸ (hmore h1).1
    exact ⟨fun heq => by omega, fun _ => hmore h1⟩

end FastdlMm.PathResolver
