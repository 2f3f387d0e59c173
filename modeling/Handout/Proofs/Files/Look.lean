import Handout.Files.Look
import Handout.Proofs.Files.Canonical
import Handout.Proofs.Sorting

/-!
# What paths of a session lead to

`Session.LeadsTo s p d` says that the path `p` leads to the directory at the location `d`, in whatever way.  From
there on, plain names that meet no link lead where they say: `find_append` for the place, `look_append` for the node,
`resolve?_append` for the real path.
-/

namespace Handout

/-- The path of what some names lead to from a path. -/
def Path.append (p : Path) (names : List String) : Path := ⟨p.anchor, p.parts ++ names⟩

@[simp] theorem Path.append_nil (p : Path) : p.append [] = p := by simp [Path.append]

theorem Path.append_append (p : Path) (first rest : List String) :
    (p.append first).append rest = p.append (first ++ rest) := by simp [Path.append]

theorem Path.parent_append (p : Path) {names : List String} (h : names ≠ []) :
    (p.append names).parent = p.append names.dropLast := by
  unfold Path.parent Path.append
  rw [List.dropLast_append_of_ne_nil h]

theorem Path.parent_append_concat (p : Path) (init : List String) (c : String) :
    (p.append (init ++ [c])).parent = p.append init := by
  rw [Path.parent_append p (by simp), List.dropLast_concat]

theorem Path.child_eq_append (p : Path) (name : String) : p.child name = p.append [name] := rfl

@[simp] theorem Path.parts_append (p : Path) (names : List String) : (p.append names).parts = p.parts ++ names := rfl

@[simp] theorem Path.isAbsolute_append (p : Path) (names : List String) :
    (p.append names).isAbsolute = p.isAbsolute := rfl

/-- A path without `..` is the same without them. -/
theorem Path.normal_of_plain {p : Path} (h : ∀ c ∈ p.parts, c ≠ "..") : p.normal = p := by
  have hfold : ∀ (parts acc : List String), (∀ c ∈ parts, c ≠ "..") →
      parts.foldl (Path.pushPart p.isAbsolute) acc = parts.reverse ++ acc := by
    intro parts
    induction parts with
    | nil => exact fun acc _ => rfl
    | cons c parts ih =>
      intro acc hc
      have hpush : Path.pushPart p.isAbsolute acc c = c :: acc := if_neg (hc c (List.mem_cons_self ..))
      rw [List.foldl_cons, hpush, ih _ fun x hx => hc x (List.mem_cons_of_mem _ hx)]
      simp
  unfold Path.normal
  rw [hfold p.parts [] h, List.append_nil, List.reverse_reverse]

theorem Path.name_append (p : Path) {names : List String} (h : names ≠ []) :
    (p.append names).name = names.getLast h := by
  unfold Path.name Path.append
  rw [List.getLast?_append_of_ne_nil _ h, List.getLast?_eq_getLast_of_ne_nil h]
  rfl

theorem Path.name_child (p : Path) (name : String) : (p.child name).name = name :=
  Path.name_append p (List.cons_ne_nil name [])

theorem Path.hasZero_append (p : Path) (names : List String) :
    (p.append names).hasZero = (p.hasZero || names.any fun c => c.toList.contains (Char.ofNat 0)) := by
  simp [Path.hasZero]

theorem Path.hasZero_child {p : Path} {c : String} (h : p.hasZero = false) (hc : Char.ofNat 0 ∉ c.toList) :
    (p.child c).hasZero = false := by
  rw [Path.child_eq_append, Path.hasZero_append, h]
  simpa using hc

theorem Path.hasZero_eq_false {p : Path} : p.hasZero = false ↔ ∀ c ∈ p.parts, Char.ofNat 0 ∉ c.toList := by
  unfold Path.hasZero
  rw [List.any_eq_false]
  simp

theorem Path.not_mem_of_hasZero {p : Path} (h : p.hasZero = false) {c : String} (hc : c ∈ p.parts) :
    Char.ofNat 0 ∉ c.toList := Path.hasZero_eq_false.1 h c hc

theorem Path.hasZero_of_subset {p q : Path} (h : p.hasZero = false) (hq : q.parts ⊆ p.parts) : q.hasZero = false :=
  Path.hasZero_eq_false.2 fun _ hc => Path.not_mem_of_hasZero h (hq hc)

theorem Path.noZero_name {p : Path} (h : p.hasZero = false) : Char.ofNat 0 ∉ p.name.toList := by
  unfold Path.name
  cases hlast : p.parts.getLast? with
  | none => simp
  | some c => exact Path.not_mem_of_hasZero h (List.mem_of_getLast? hlast)

/-- A relative path is taken from another one by its components. -/
theorem Path.join_eq_append (p : Path) {q : Path} (h : q.isAbsolute = false) : p.join q = p.append q.parts := by
  unfold Path.join
  rw [h, if_neg Bool.false_ne_true]
  rfl

/-- The path from the root to a location. -/
def Location.path (loc : Location) : Path := ⟨.root, loc⟩

namespace Session

variable {s t : Session} {p : Path} {d loc : Location} {c : String} {names : List String} {follow : Bool}

/-- The directory from which a path starts. -/
def start (s : Session) (p : Path) : Location := if p.isAbsolute then [] else s.workingDir

theorem isDirectoryNode_iff {node : Option Node} : isDirectoryNode node = true ↔ node = some .directory := by
  unfold isDirectoryNode
  split
  · exact ⟨fun _ => rfl, fun _ => rfl⟩
  · rename_i h
    exact ⟨nofun, fun hd => absurd hd h⟩

theorem isDirectoryNode_eq_false {node : Option Node} : isDirectoryNode node = false ↔ node ≠ some .directory := by
  rw [← Bool.not_eq_true, isDirectoryNode_iff]

/-- A path leads to a directory. -/
def LeadsTo (s : Session) (p : Path) (d : Location) : Prop :=
  ∃ n ≤ maxLinks, s.files.Leads (s.start p) p.parts n d

/-- The files are well-formed, and the working directory is there. -/
structure Sound (s : Session) : Prop where
  files : s.files.WellFormed
  workingDir : s.files.get? s.workingDir = some .directory

theorem Sound.start (h : s.Sound) (p : Path) : s.files.get? (s.start p) = some .directory := by
  unfold Session.start
  split
  · rfl
  · exact h.workingDir

/-- Storing a node in a directory under a proper name, where it does not take the place of a directory. -/
theorem Sound.put (h : s.Sound) {dir : Location} {name : String} {node : Node}
    (hd : s.files.get? dir = some .directory) (hn : IsProper name)
    (hold : s.files.get? (dir ++ [name]) = some .directory → node = .directory) :
    Sound { s with files := s.files.put (dir ++ [name]) node } := by
  refine ⟨h.files.put hd hn hold, ?_⟩
  have hw := h.workingDir
  dsimp only
  rw [Files.get?_put (by simp)]
  split
  · rename_i he
    rw [hold (he ▸ hw)]
  · exact hw

/-- Taking away what is no directory. -/
theorem Sound.erase (h : s.Sound) {x : Location} (hx : s.files.get? x ≠ some .directory) :
    Sound { s with files := s.files.erase x } := by
  refine ⟨h.files.erase hx, ?_⟩
  have hne : x ≠ [] := by
    rintro rfl
    exact hx (Files.get?_nil _)
  dsimp only
  rw [Files.get?_erase hne, if_neg, h.workingDir]
  rintro rfl
  exact hx h.workingDir

theorem LeadsTo.directory (h : s.LeadsTo p d) (hs : s.Sound) : s.files.get? d = some .directory := by
  obtain ⟨n, -, hl⟩ := h
  exact hl.directory hs.files (hs.start p)

theorem leadsTo_iff_find : s.LeadsTo p d ↔ s.find true p = .ok ⟨d, some .directory⟩ := by
  constructor
  · rintro ⟨n, hn, hl⟩
    have hlast : ([] : List String) ≠ [] ∨ true = true := .inr rfl
    have h := Files.walk_of_leads hl hn hlast
    rw [List.append_nil, Files.walk_nil] at h
    exact h
  · intro h
    obtain ⟨n, hn, hl⟩ := Files.leads_of_walk h
    exact ⟨n, hn, hl⟩

theorem LeadsTo.unique {e : Location} (h : s.LeadsTo p d) (h' : s.LeadsTo p e) : d = e := by
  obtain ⟨n, -, hl⟩ := h
  obtain ⟨m, -, hl'⟩ := h'
  exact (hl.unique hl').2

/-- A path goes on leading to a directory as long as no directory and no link is taken away. -/
theorem LeadsTo.mono (h : s.LeadsTo p d) (hw : t.workingDir = s.workingDir)
    (hdir : ∀ x, s.files.get? x = some .directory → t.files.get? x = some .directory)
    (hlink : ∀ x target, s.files.get? x = some (.link target) → t.files.get? x = some (.link target)) :
    t.LeadsTo p d := by
  obtain ⟨n, hn, hl⟩ := h
  refine ⟨n, hn, ?_⟩
  have hstart : t.start p = s.start p := by
    unfold Session.start
    rw [hw]
  rw [hstart]
  exact hl.mono hdir hlink

/-- Plain names below a directory lead where they say, if anything is there. -/
theorem find_append (follow : Bool) (h : s.LeadsTo p d) (hs : s.Sound) (hp : ∀ c ∈ names, IsPlain c) (hc : s.files.Clear d names)
    (hq : names ≠ [] ∨ follow = true) :
    s.find follow (p.append names) = .ok ⟨d ++ names, s.files.get? (d ++ names)⟩ ∨
      ∃ code, s.find follow (p.append names) = .error code ∧ s.files.get? (d ++ names) = none ∧
        (code = .nameTooLong → ∃ c ∈ names, maxName < c.utf8ByteSize) := by
  have hd := h.directory hs
  obtain ⟨n, hn, hl⟩ := h
  have hfind : s.find follow (p.append names) = s.files.walk follow (maxLinks - n) d names :=
    Files.walk_of_leads hl hn hq
  rw [hfind]
  exact Files.walk_plain hs.files hd hp hc

theorem find_append_of_exists (follow : Bool) (h : s.LeadsTo p d) (hs : s.Sound) (hp : ∀ c ∈ names, IsPlain c)
    (hc : s.files.Clear d names) (hq : names ≠ [] ∨ follow = true) (hn : s.files.get? (d ++ names) ≠ none) :
    s.find follow (p.append names) = .ok ⟨d ++ names, s.files.get? (d ++ names)⟩ := by
  rcases find_append follow h hs hp hc hq with h | ⟨code, -, hnone, -⟩
  · exact h
  · exact absurd hnone hn

/-- A directory below the one to which a path leads is led to by name. -/
theorem LeadsTo.append (h : s.LeadsTo p d) (hs : s.Sound) (hn : s.files.get? (d ++ names) = some .directory) :
    s.LeadsTo (p.append names) (d ++ names) := by
  have hexists : s.files.get? (d ++ names) ≠ none := by
    rw [hn]
    exact Option.some_ne_none _
  have hfind := find_append_of_exists true h hs (fun c hc => (hs.files.proper_of_mem hexists hc).plain)
    (hs.files.clear hexists (by simp [hn])) (.inr rfl) hexists
  rw [hn] at hfind
  exact leadsTo_iff_find.2 hfind

theorem find_isSound {place : Place} (hs : s.Sound) (h : s.find follow p = .ok place) : s.files.IsSound place :=
  Files.walk_isSound hs.files (hs.start p) h

/-- A path that finds something leads through directories. -/
theorem leads_of_find_append {place : Place} (h : s.find follow (p.append names) = .ok place)
    (hr : names ≠ [] ∨ follow = true ∧ place.node = some .directory) : ∃ d, s.LeadsTo p d := by
  obtain ⟨k, hk, d, hl⟩ := Files.leads_of_walk_append (h : s.files.walk follow maxLinks (s.start p) (p.parts ++ names) = _) hr
  exact ⟨d, k, hk, hl⟩

/-- What a path that can be looked at leads to. -/
theorem look_append (h : s.LeadsTo p d) (hs : s.Sound) (hp : ∀ c ∈ names, IsPlain c) (hc : s.files.Clear d names)
    (hq : names ≠ [] ∨ follow = true) {node : Option Node} (hlook : s.look follow (p.append names) = .ok node) :
    node = if (p.append names).hasZero then none else s.files.get? (d ++ names) := by
  unfold look at hlook
  split at hlook
  · rename_i hz
    rw [if_pos hz]
    cases hlook
    rfl
  · rename_i hz
    rw [if_neg hz]
    rcases find_append follow h hs hp hc hq with hf | ⟨code, hf, hn, -⟩
    · rw [hf] at hlook
      cases hlook
      rfl
    · rw [hf] at hlook
      cases code <;> cases hlook <;> exact hn.symm

theorem look_append_of_exists (h : s.LeadsTo p d) (hs : s.Sound) (hp : ∀ c ∈ names, IsPlain c)
    (hc : s.files.Clear d names) (hq : names ≠ [] ∨ follow = true) (hz : (p.append names).hasZero = false)
    (hn : s.files.get? (d ++ names) ≠ none) :
    s.look follow (p.append names) = .ok (s.files.get? (d ++ names)) := by
  unfold look
  rw [hz, if_neg Bool.false_ne_true, find_append_of_exists follow h hs hp hc hq hn]

/-- Names of permitted length can always be looked at. -/
theorem look_append_of_short (follow : Bool) (h : s.LeadsTo p d) (hs : s.Sound) (hp : ∀ c ∈ names, IsPlain c)
    (hc : s.files.Clear d names) (hq : names ≠ [] ∨ follow = true) (hshort : ∀ c ∈ names, c.utf8ByteSize ≤ maxName) :
    s.look follow (p.append names) = .ok (if (p.append names).hasZero then none else s.files.get? (d ++ names)) := by
  unfold look
  split
  · rename_i hz
    rfl
  · rename_i hz
    rcases find_append follow h hs hp hc hq with hf | ⟨code, hf, hn, hlong⟩
    · rw [hf]
    · rw [hf, hn]
      cases code with
      | nameTooLong =>
        obtain ⟨c, hc, hlong⟩ := hlong rfl
        have := hshort c hc
        omega
      | _ => rfl

/-- The real path of what plain names lead to. -/
theorem resolve?_append (h : s.LeadsTo p d) (hp : ∀ c ∈ names, IsPlain c) (hc : s.files.Clear d names) :
    s.resolve? (p.append names) =
      if (p.append names).hasZero then .error .zeroInPath else .ok (Location.path (d ++ names)) := by
  obtain ⟨n, -, hl⟩ := h
  unfold resolve?
  split
  · rfl
  · have hcanonical : s.files.canonical (s.files.links + 1) [] (s.start p) (p.append names).parts =
        (d ++ names, true) := by
      rw [Path.parts_append, Files.canonical_append (Files.canonical_of_leads hl), Files.canonical_plain hp hc]
    have hstart : (if (p.append names).isAbsolute then [] else s.workingDir) = s.start p := rfl
    simp only [hstart, hcanonical, Bool.not_true, Bool.false_and]
    rfl

/-! ### Paths from the root -/

theorem leadsTo_root (s : Session) : s.LeadsTo (Location.path []) [] := ⟨0, Nat.zero_le _, .here _⟩

theorem proper_of_exists (hs : s.Sound) {loc : Location} (hn : s.files.get? loc ≠ none) {c : String} (hc : c ∈ loc) :
    IsProper c :=
  hs.files.proper_of_mem (by rw [List.nil_append]; exact hn : s.files.get? ([] ++ loc) ≠ none) hc

theorem hasZero_path (hs : s.Sound) {loc : Location} (hn : s.files.get? loc ≠ none) : loc.path.hasZero = false := by
  unfold Path.hasZero
  rw [List.any_eq_false]
  intro c hc
  simpa using (proper_of_exists hs hn hc).noZero

/-- The path from the root to a stored node that is no link finds it. -/
theorem find_path (follow : Bool) (hs : s.Sound) {loc : Location} (hn : s.files.get? loc ≠ none)
    (hl : ∀ target, s.files.get? loc ≠ some (.link target)) :
    s.find follow loc.path = .ok ⟨loc, s.files.get? loc⟩ := by
  by_cases hne : loc = []
  · subst hne
    exact Files.walk_nil
  · have h := find_append_of_exists follow (leadsTo_root s) hs (fun c hc => (proper_of_exists hs hn hc).plain)
      (hs.files.clear (by rw [List.nil_append]; exact hn) (by rw [List.nil_append]; exact hl)) (.inl hne)
      (by rw [List.nil_append]; exact hn)
    rwa [List.nil_append] at h

theorem look_path (follow : Bool) (hs : s.Sound) {loc : Location} (hn : s.files.get? loc ≠ none)
    (hl : ∀ target, s.files.get? loc ≠ some (.link target)) : s.look follow loc.path = .ok (s.files.get? loc) := by
  unfold look
  rw [hasZero_path hs hn, if_neg Bool.false_ne_true, find_path follow hs hn hl]

/-- The path from the root to a directory leads there. -/
theorem leadsTo_path (hs : s.Sound) (hd : s.files.get? d = some .directory) : s.LeadsTo d.path d := by
  have h := find_path true hs (by rw [hd]; exact Option.some_ne_none _) (by rw [hd]; simp)
  rw [hd] at h
  exact leadsTo_iff_find.2 h

/-- A path that leads to a directory has no zero. -/
theorem LeadsTo.hasZero (h : s.LeadsTo p d) (hs : s.Sound) : p.hasZero = false := by
  obtain ⟨n, -, hl⟩ := h
  unfold Path.hasZero
  rw [List.any_eq_false]
  intro c hc
  simpa using hl.noZero hs.files c hc

/-- An entry of a directory that is no link is found by its name. -/
theorem find_child (follow : Bool) (h : s.LeadsTo p loc) (hc : IsPlain c) (hs : c.utf8ByteSize ≤ maxName)
    (hl : ∀ target, s.files.get? (loc ++ [c]) ≠ some (.link target)) :
    s.find follow (p.child c) = .ok ⟨loc ++ [c], s.files.get? (loc ++ [c])⟩ := by
  obtain ⟨n, hn, hleads⟩ := h
  have hfind : s.find follow (p.child c) = s.files.walk follow (maxLinks - n) loc [c] :=
    Files.walk_of_leads hleads hn (.inl (by simp))
  rw [hfind, Files.walk_name hc hs]
  cases hnode : s.files.get? (loc ++ [c]) with
  | none => rfl
  | some node =>
    cases node with
    | directory => exact Files.walk_nil
    | file data executable => rfl
    | link target => exact absurd hnode (hl target)

/-- A path leads straight to a location: what is there, if anything, is no link. -/
structure Reaches (s : Session) (p : Path) (loc : Location) : Prop where
  hasZero : p.hasZero = false
  find : ∀ follow, s.find follow p = .ok ⟨loc, s.files.get? loc⟩

theorem Reaches.node? (h : s.Reaches p loc) (follow : Bool) : s.node? follow p = s.files.get? loc := by
  unfold Session.node?
  rw [h.hasZero, if_neg Bool.false_ne_true, h.find]

theorem Reaches.look (h : s.Reaches p loc) (follow : Bool) : s.look follow p = .ok (s.files.get? loc) := by
  unfold Session.look
  rw [h.hasZero, if_neg Bool.false_ne_true, h.find]

/-- What is reached is reached as well if it is kept, and so are the directories and links. -/
theorem Reaches.keep (h : s.Reaches p loc) (hw : t.workingDir = s.workingDir)
    (hdir : ∀ x, s.files.get? x = some .directory → t.files.get? x = some .directory)
    (hlink : ∀ x target, s.files.get? x = some (.link target) → t.files.get? x = some (.link target))
    (hend : t.files.get? loc = s.files.get? loc) (hn : s.files.get? loc ≠ none) : t.Reaches p loc := by
  refine ⟨h.hasZero, fun follow => ?_⟩
  have hfind := h.find follow
  unfold Session.find at hfind ⊢
  rw [hw, hend]
  exact Files.walk_keep hdir hlink hend hfind hn

/-- What is reached is reached as well when more is stored. -/
theorem Reaches.mono (h : s.Reaches p loc) (hw : t.workingDir = s.workingDir)
    (hkeep : ∀ x, s.files.get? x ≠ none → t.files.get? x = s.files.get? x) (hn : s.files.get? loc ≠ none) :
    t.Reaches p loc := by
  have hsame : ∀ {x node}, s.files.get? x = some node → t.files.get? x = some node := fun hx =>
    (hkeep _ (by rw [hx]; exact Option.some_ne_none _)).trans hx
  exact h.keep hw (fun _ => hsame) (fun _ _ => hsame) (hkeep loc hn) hn

/-- The path from the root reaches what is stored. -/
theorem reaches_path (hs : s.Sound) (hn : s.files.get? loc ≠ none)
    (hl : ∀ target, s.files.get? loc ≠ some (.link target)) : s.Reaches loc.path loc :=
  ⟨hasZero_path hs hn, fun follow => find_path follow hs hn hl⟩

/-- An entry of a directory is reached by its name, or the place where it is missing. -/
theorem reaches_child (h : s.LeadsTo p loc) (hs : s.Sound) (hc : IsProper c)
    (hl : ∀ target, s.files.get? (loc ++ [c]) ≠ some (.link target)) : s.Reaches (p.child c) (loc ++ [c]) := by
  refine ⟨?_, fun follow => find_child follow h hc.plain hc.short hl⟩
  rw [Path.child_eq_append, Path.hasZero_append, h.hasZero hs]
  simpa using hc.noZero

/-- What the names in a directory are. -/
theorem names?_eq_ok {w : WrittenPath} {found : List String} (h : s.names? w = .ok found) :
    ∃ loc, s.find true w.path = .ok ⟨loc, some .directory⟩ ∧ found = s.files.names loc := by
  unfold names? at h
  split at h
  · cases h
  · split at h
    · cases h
    · split at h
      · cases h
      · cases h
      · rename_i loc hf
        cases h
        exact ⟨loc, hf, rfl⟩
      · cases h

/-- What is read is the data of the file to which the path leads. -/
theorem content?_eq_ok {w : WrittenPath} {data : Bytes} (h : s.content? w = .ok data) :
    w.path.hasZero = false ∧ ∃ loc executable, s.find true w.path = .ok ⟨loc, some (.file data executable)⟩ := by
  unfold content? at h
  split at h
  · cases h
  · rename_i hz
    split at h
    · cases h
    · rename_i loc _ executable hf
      cases h
      exact ⟨Bool.eq_false_iff.2 hz, loc, executable, hf⟩
    · cases h
    · cases h

end Session

private theorem le_trans_names (a b c : String) (hab : decide (a ≤ b) = true) (hbc : decide (b ≤ c) = true) :
    decide (a ≤ c) = true := decide_eq_true (String.le_trans (of_decide_eq_true hab) (of_decide_eq_true hbc))

private theorem le_total_names (a b : String) : decide (a ≤ b) = true ∨ decide (b ≤ a) = true :=
  (String.le_total a b).imp decide_eq_true decide_eq_true

private theorem le_antisymm_names (a b : String) (hab : decide (a ≤ b) = true) (hba : decide (b ≤ a) = true) :
    a = b := String.le_antisymm (of_decide_eq_true hab) (of_decide_eq_true hba)

/-- Names are sorted alike in whatever order they come. -/
theorem sortNames_eq_of_perm {l l' : List String} (h : l.Perm l') : sortNames l = sortNames l' :=
  sortBy_eq_of_perm le_trans_names le_total_names le_antisymm_names h

/-- Names may be left out before they are sorted or afterwards. -/
theorem sortNames_filter (keep : String → Bool) (l : List String) :
    sortNames (l.filter keep) = (sortNames l).filter keep :=
  sortBy_filter le_trans_names le_total_names le_antisymm_names keep l

end Handout
