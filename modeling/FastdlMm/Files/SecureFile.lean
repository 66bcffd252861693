import FastdlMm.Files.OpenedFile
import FastdlMm.Files.PathAccess

namespace FastdlMm

/-- An open file: the place that `open` reached and what it found there. -/
structure Descriptor where
  place : Path
  opened : Entry
  deriving DecidableEq

/-- What `stat` finds at a path, following links. -/
def Tree.stat (t : Tree) (p : Path) : Option Entry :=
  match t.locate p with
  | .ok place => t.entry place
  | .error _ => none

def openReadFile (t : Tree) (p : Path) : Option Descriptor :=
  match t.locate p with
  | .ok place => (t.entry place).map (fun e => ⟨place, e⟩)
  | .error _ => none

/-- The descriptor is a regular file, and the expected path names the same one now. -/
def inspectReadFile (t : Tree) (d : Descriptor) (expected : Path) : Bool :=
  match d.opened, t.stat expected with
  | .file opened _, some (.file current _) => decide (opened = current)
  | _, _ => false

/-- What `inspectReadFile` reads off a regular file: `times` is `st_mtim`, in seconds and nanoseconds. -/
def fileInfo (times : Inode → Int × Nat) (inode : Inode) (size : Nat) : OpenedFileInfo where
  size := size
  modifiedSeconds := (times inode).1
  modifiedIdentity := (((times inode).1 * 1000000000 + (times inode).2) % 2 ^ 64).toNat
  fileIdentity := inode.device ^^^ wrapMul 64 inode.number 1099511628211

/-- What a file is found to be that is opened and inspected under one path. -/
def describeFile (t : Tree) (times : Inode → Int × Nat) (p : Path) : Option OpenedFileInfo :=
  (openReadFile t p).bind fun d =>
    match d.opened with
    | .file inode size => if inspectReadFile t d p then some (fileInfo times inode size) else none
    | _ => none

/-- How far a request has come in `dispatch` and `serveFile`. -/
inductive Phase where
  | received
  | resolved (path : Path)
  | opened (path : Path) (d : Descriptor)
  | sending (d : Descriptor)
  | refused
  deriving DecidableEq

/-- The tree, how far the request has come, and the tree that its `open` met, which the code does not
keep. -/
structure World where
  tree : Tree
  phase : Phase
  met : Tree

/-- One request among the changes that other processes make to the tree. `size` is what `fstat`
reads, which other processes may have changed too. -/
inductive Action where
  | change (t : Tree)
  | resolve
  | openFile
  | inspect (size : Nat)

def World.act (r : PathResolver) (url : Text) (maxBytes : Nat) (w : World) : Action → World
  | .change t => { w with tree := t }
  | .resolve =>
      match w.phase with
      | .received =>
          let file := r.resolve w.tree url maxBytes
          { w with phase := if file.status = .ok then .resolved file.path else .refused }
      | _ => w
  | .openFile =>
      match w.phase with
      | .resolved path =>
          match openReadFile w.tree path with
          | some d => { w with phase := .opened path d, met := w.tree }
          | none => { w with phase := .refused }
      | _ => w
  | .inspect size =>
      match w.phase with
      | .opened path d =>
          if inspectReadFile w.tree d path && decide (size ≤ maxBytes) then
            { w with phase := .sending d }
          else { w with phase := .refused }
      | _ => w

theorem World.act_openFile {r : PathResolver} {url : Text} {maxBytes : Nat} {w : World}
    (path : Path) (d : Descriptor) (hp : w.phase = .resolved path)
    (hd : openReadFile w.tree path = some d) :
    w.act r url maxBytes .openFile = { w with phase := .opened path d, met := w.tree } := by
  simp only [World.act, hp, hd]

/-- The runs of a request whose every step meets a condition on the world it starts from. -/
inductive Serves (r : PathResolver) (url : Text) (maxBytes : Nat) (meets : World → Action → Prop)
    (t₀ : Tree) : World → Prop
  | start : Serves r url maxBytes meets t₀ ⟨t₀, .received, t₀⟩
  | act {w : World} (x : Action) : Serves r url maxBytes meets t₀ w → meets w x →
      Serves r url maxBytes meets t₀ (w.act r url maxBytes x)

/-- What is sent comes from below the root. -/
def Contained (root : Path) (w : World) : Prop :=
  ∀ d, w.phase = .sending d → root <+: d.place ∧ d.place ≠ root

/-- No place outside the root holds the file. -/
def Tree.KeepsBelow (t : Tree) (root : Path) (inode : Inode) : Prop :=
  ∀ p size, t.entry p = some (.file inode size) → root <+: p ∧ p ≠ root

/-- The tree that `open` met sheltered the resolved path, or it had no place outside the root for the
file that the path names when the descriptor is inspected. -/
def OpenedWithin (r : PathResolver) (w : World) : Action → Prop
  | .inspect _ => ∀ path d, w.phase = .opened path d →
      Sheltered w.met r.root path ∨
        ∀ inode size, w.tree.stat path = some (.file inode size) → w.met.KeepsBelow r.root inode
  | _ => True

/-- What a path keeps that `resolve` answered with: it is plain and lies below the root. -/
structure Chosen (root path : Path) : Prop where
  plain : ∀ n ∈ path, Name.Plain n
  below : root <+: path
  strict : path ≠ root

theorem PathResolver.resolve_chosen {r : PathResolver} {t : Tree} {url : Text} {maxBytes : Nat}
    (h : (r.resolve t url maxBytes).status = .ok) :
    Chosen r.root (r.resolve t url maxBytes).path := by
  obtain ⟨relative, -, hl, hin, -, ⟨hone, hmore⟩, -⟩ := (resolve_ok r t url maxBytes _).mp ⟨h, rfl⟩
  generalize (r.resolve t url maxBytes).path = p at *
  refine ⟨((walk_sound hl).real t.real_top).plain, List.isPrefixOf_iff_prefix.mp hin, ?_⟩
  rintro rfl
  have hnone : componentsUnder r.root r.root = [] := by
    simpa using componentsUnder_append r.root []
  rw [hnone] at hone hmore
  by_cases h1 : relative.length = 1
  · simpa using (hone h1).1
  · simpa using (hmore h1).1

/-- What a request keeps: an open descriptor is what the resolved path led to in the tree that `open`
met. -/
def Holds (root : Path) (w : World) : Prop :=
  match w.phase with
  | .resolved path => Chosen root path
  | .opened path d =>
      Chosen root path ∧ Leads w.met ([], path) d.place ∧ w.met.entry d.place = some d.opened
  | .sending d => root <+: d.place ∧ d.place ≠ root
  | _ => True

theorem openReadFile_some {t : Tree} {p : Path} {d : Descriptor}
    (h : openReadFile t p = some d) : Leads t ([], p) d.place ∧ t.entry d.place = some d.opened := by
  unfold openReadFile at h
  split at h
  · rename_i place hl
    obtain ⟨e, he, rfl⟩ := Option.map_eq_some_iff.mp h
    exact ⟨walk_sound hl, he⟩
  · cases h

/-- A descriptor that passes is the file which the expected path names now. -/
theorem inspectReadFile_same {t : Tree} {d : Descriptor} {expected : Path}
    (h : inspectReadFile t d expected = true) :
    ∃ inode size size', d.opened = .file inode size ∧
      t.stat expected = some (.file inode size') := by
  unfold inspectReadFile at h
  split at h
  · rename_i opened size current size' hd hs
    obtain rfl := of_decide_eq_true h
    exact ⟨opened, size, size', hd, hs⟩
  · cases h

/-- What passes the inspection was opened below the root: either the walk could not leave it, or the
file that the path names now could be reached there only. -/
theorem inspect_below {r : PathResolver} {w : World} {path : Path} {d : Descriptor} {size : Nat}
    (hw : OpenedWithin r w (.inspect size)) (hp : w.phase = .opened path d)
    (h : Holds r.root w) (hins : inspectReadFile w.tree d path = true) :
    r.root <+: d.place ∧ d.place ≠ r.root := by
  obtain ⟨inode, size, size', hopened, hstat⟩ := inspectReadFile_same hins
  rw [Holds, hp] at h
  obtain ⟨hchosen, hlead, hentry⟩ := h
  rw [hopened] at hentry
  rcases hw path d hp with hsheltered | hkeeps
  · obtain ⟨hbelow, hstrict⟩ :=
      hsheltered.leads hchosen.plain hchosen.below hchosen.strict hlead
    exact ⟨hbelow, hstrict (by simp [hentry])⟩
  · exact hkeeps inode size' hstat d.place size hentry

theorem act_holds {r : PathResolver} {url : Text} {maxBytes : Nat} {w : World}
    (h : Holds r.root w) (x : Action) (hx : OpenedWithin r w x) :
    Holds r.root (w.act r url maxBytes x) := by
  cases x with
  | change t => exact h
  | resolve =>
    simp only [World.act]
    split
    · split_ifs with hok
      · exact PathResolver.resolve_chosen hok
      · trivial
    · exact h
  | openFile =>
    simp only [World.act]
    split
    · rename_i path hp
      rw [Holds, hp] at h
      split
      · rename_i d hd
        exact ⟨h, openReadFile_some hd⟩
      · trivial
    · exact h
  | inspect size =>
    simp only [World.act]
    split
    · rename_i path d hp
      split_ifs with hins
      · rw [Bool.and_eq_true] at hins
        exact inspect_below hx hp h hins.1
      · trivial
    · exact h

/-- Whatever is sent comes from below the root, in whatever way the tree changes between the steps,
when each open met a tree that shelters the resolved path or one that keeps the file named at the
inspection below the root. -/
theorem sends_contained {r : PathResolver} {url : Text} {maxBytes : Nat} {t₀ : Tree} {w : World}
    (h : Serves r url maxBytes (OpenedWithin r) t₀ w) : Contained r.root w := by
  have hall : Holds r.root w := by
    induction h with
    | start => trivial
    | act x _ hx ih => exact act_holds ih x hx
  intro d hd
  rw [Holds, hd] at hall
  exact hall

def servedTree : Tree :=
  Tree.ofEntries
    [([text "www"], .directory), ([text "www", text "maps"], .directory),
      ([text "www", text "maps", text "a.bsp"], .file ⟨1, 7⟩ 2000)] 40 (by decide +kernel)

/-- The served directory, moved within the root and replaced by a link. -/
def movedTree : Tree :=
  Tree.ofEntries
    [([text "www"], .directory), ([text "www", text "stock"], .directory),
      ([text "www", text "stock", text "a.bsp"], .file ⟨1, 7⟩ 2000),
      ([text "www", text "maps"], .symlink ⟨false, [text "stock"]⟩)] 40 (by decide +kernel)

/-- The served directory, moved within the root and replaced by a link to one outside it. -/
def swappedTree : Tree :=
  Tree.ofEntries
    [([text "www"], .directory), ([text "www", text "stock"], .directory),
      ([text "www", text "stock", text "a.bsp"], .file ⟨1, 7⟩ 2000),
      ([text "www", text "maps"], .symlink ⟨true, [text "etc"]⟩),
      ([text "etc"], .directory), ([text "etc", text "a.bsp"], .file ⟨1, 9⟩ 3000)] 40
    (by decide +kernel)

private theorem movedTree_sheltered (path : Path) : Sheltered movedTree [text "www"] path := by
  apply Sheltered.of_links
  intro q l hl
  have hmem := listedEntry_mem hl (by simp)
  simp only [List.mem_cons, List.not_mem_nil, or_false, Prod.mk.injEq, reduceCtorEq, and_false,
    false_or, Entry.symlink.injEq] at hmem
  obtain ⟨rfl, rfl⟩ := hmem
  exact ⟨by decide +kernel, by decide +kernel, by simp⟩

private theorem swappedTree_keepsBelow : swappedTree.KeepsBelow [text "www"] ⟨1, 7⟩ := by
  intro p size hp
  have hmem := listedEntry_mem hp (by simp)
  simp only [List.mem_cons, List.not_mem_nil, or_false, Prod.mk.injEq, reduceCtorEq, and_false,
    false_or, Entry.file.injEq, Inode.mk.injEq, Nat.reduceEqDiff, false_and] at hmem
  obtain ⟨rfl, -⟩ := hmem
  exact ⟨by decide +kernel, by decide +kernel⟩

/-- One run is sent through a link that stays below the root. In the other the served directory is
swapped for a link while it is opened only, and the inspection refuses what was opened. -/
theorem sends_contained_swapped :
    (∃ w, Serves PathResolver.sampleResolver (text "/maps/a.bsp") 5000
        (OpenedWithin PathResolver.sampleResolver) servedTree w ∧
      w.phase = .sending ⟨[text "www", text "stock", text "a.bsp"], .file ⟨1, 7⟩ 2000⟩ ∧
      Contained [text "www"] w) ∧
    ∃ w, Serves PathResolver.sampleResolver (text "/maps/a.bsp") 5000
        (OpenedWithin PathResolver.sampleResolver) servedTree w ∧
      w.phase = .opened [text "www", text "maps", text "a.bsp"]
        ⟨[text "etc", text "a.bsp"], .file ⟨1, 9⟩ 3000⟩ ∧
      (w.act PathResolver.sampleResolver (text "/maps/a.bsp") 5000 (.inspect 3000)).phase =
        .refused ∧
      Contained [text "www"]
        (w.act PathResolver.sampleResolver (text "/maps/a.bsp") 5000 (.inspect 3000)) := by
  have hresolved : Serves PathResolver.sampleResolver (text "/maps/a.bsp") 5000
      (OpenedWithin PathResolver.sampleResolver) servedTree _ :=
    Serves.start.act .resolve trivial
  constructor
  · have hopened := (hresolved.act (.change movedTree) trivial).act .openFile trivial
    rw [World.act_openFile [text "www", text "maps", text "a.bsp"]
      ⟨[text "www", text "stock", text "a.bsp"], .file ⟨1, 7⟩ 2000⟩ (by decide +kernel)
      (by decide +kernel)] at hopened
    have hsent := hopened.act (.inspect 2000) fun path _ _ => .inl (movedTree_sheltered path)
    exact ⟨_, hsent, by decide +kernel, sends_contained hsent⟩
  · have hopened := (hresolved.act (.change swappedTree) trivial).act .openFile trivial
    rw [World.act_openFile [text "www", text "maps", text "a.bsp"]
      ⟨[text "etc", text "a.bsp"], .file ⟨1, 9⟩ 3000⟩ (by decide +kernel)
      (by decide +kernel)] at hopened
    have hback := hopened.act (.change servedTree) trivial
    refine ⟨_, hback, rfl, by decide +kernel, sends_contained (hback.act (.inspect 3000) ?_)⟩
    intro path d hp
    right
    intro inode size hstat
    cases hp
    have hnamed : servedTree.stat [text "www", text "maps", text "a.bsp"] =
        some (.file ⟨1, 7⟩ 2000) := by
      decide +kernel
    cases hnamed.symm.trans hstat
    exact swappedTree_keepsBelow

/-- The check of the descriptor follows the same swapped link as the open: the file outside the
root passes it. -/
theorem swapped_directory_escapes :
    ∃ w, Serves PathResolver.sampleResolver (text "/maps/a.bsp") 5000 (fun _ _ => True)
        servedTree w ∧
      ¬ Contained PathResolver.sampleResolver.root w := by
  have hsent : Serves PathResolver.sampleResolver (text "/maps/a.bsp") 5000 (fun _ _ => True)
      servedTree _ :=
    (((Serves.start.act .resolve trivial).act (.change swappedTree) trivial).act .openFile
      trivial).act (.inspect 3000) trivial
  refine ⟨_, hsent, fun h => ?_⟩
  have hout := h ⟨[text "etc", text "a.bsp"], .file ⟨1, 9⟩ 3000⟩ (by decide +kernel)
  exact absurd hout.1 (by decide +kernel)

end FastdlMm
