import Handout.Files.Copy
import Handout.Proofs.Files.Change
import Handout.Proofs.Files.Overlay

/-!
# What requests do at known places

`Session.Within before s d` says that since `before` only what is below the directory at `d` has changed, and that
there are no links in it.  For a path from the root to such a place, every request is described in full: it stores the
one node that it should, or it fails and changes nothing.
-/

namespace Handout

variable {before s t : Session} {d dir x : Location} {name : String} {node : Node}

namespace Session

/-- Since `before`, only what is below a directory has changed, apart from the log, and there are no links in it. -/
structure Within (before s : Session) (d : Location) : Prop where
  only : s = { before with files := s.files, log := s.log }
  sound : s.Sound
  directory : s.files.get? d = some .directory
  outside : ∀ x, ¬ d <+: x → s.files.get? x = before.files.get? x
  names : ∀ x, ¬ d <+: x → s.files.names x = before.files.names x
  noLink : ∀ rel target, s.files.get? (d ++ rel) ≠ some (.link target)

theorem Within.refl (hs : s.Sound) (hd : s.files.get? d = some .directory)
    (hl : ∀ rel target, s.files.get? (d ++ rel) ≠ some (.link target)) : Within s s d :=
  ⟨rfl, hs, hd, fun _ _ => rfl, fun _ _ => rfl, hl⟩

/-- A change in a directory is a change in the directories around it. -/
theorem Within.widen {e : Location} (h : Within before s d) (he : d <+: e) (h' : Within s t e) : Within before t d where
  only := h'.only.trans (congrArg (fun u : Session => { u with files := t.files, log := t.log }) h.only)
  sound := h'.sound
  directory := h'.sound.files.way h'.directory he
  outside x hx := (h'.outside x fun hex => hx (he.trans hex)).trans (h.outside x hx)
  names x hx := (h'.names x fun hex => hx (he.trans hex)).trans (h.names x hx)
  noLink rel target := by
    by_cases hrel : e <+: d ++ rel
    · obtain ⟨more, hmore⟩ := hrel
      rw [← hmore]
      exact h'.noLink more target
    · rw [h'.outside _ hrel]
      exact h.noLink rel target

theorem Within.trans (h : Within before s d) (h' : Within s t d) : Within before t d := h.widen (List.prefix_refl d) h'

theorem Within.log (h : Within before s d) (record : LogRecord) :
    Within before { s with log := s.log ++ [record] } d :=
  ⟨congrArg (fun u : Session => { u with log := s.log ++ [record] }) h.only, ⟨h.sound.files, h.sound.workingDir⟩,
    h.directory, h.outside, h.names, h.noLink⟩

/-- There are no links anywhere below the directory. -/
theorem Within.ne_link (h : Within before s d) (hx : d <+: x) (target : String) :
    s.files.get? x ≠ some (.link target) := by
  obtain ⟨rel, rfl⟩ := hx
  exact h.noLink rel target

theorem Within.put (h : Within before s d) (hx : d <+: dir) (hdir : s.files.get? dir = some .directory)
    (hn : IsProper name) (hold : s.files.get? (dir ++ [name]) = some .directory → node = .directory)
    (hnode : node.isLink = false) : Within before { s with files := s.files.put (dir ++ [name]) node } d := by
  have hne : dir ++ [name] ≠ [] := by simp
  refine ⟨congrArg (fun u : Session => { u with files := s.files.put (dir ++ [name]) node }) h.only,
    h.sound.put hdir hn hold, ?_, ?_, ?_, ?_⟩
  · have hd := h.directory
    dsimp only
    rw [Files.get?_put hne]
    split
    · rename_i he
      rw [hold (he ▸ hd)]
    · exact hd
  · intro y hy
    dsimp only
    rw [Files.get?_put_of_ne hne, h.outside y hy]
    rintro rfl
    exact hy (hx.trans (List.prefix_append _ _))
  · intro y hy
    dsimp only
    rw [Files.names_put_of_ne, h.names y hy]
    rw [List.dropLast_concat]
    rintro rfl
    exact hy hx
  · intro rel target
    dsimp only
    rw [Files.get?_put hne]
    split
    · intro hlink
      cases hlink
      cases hnode
    · exact h.noLink rel target

/-- A place where something may be stored: an entry of a directory, under a proper name. -/
structure Spot (s : Session) (dir : Location) (name : String) : Prop where
  parent : s.files.get? dir = some .directory
  proper : IsProper name

theorem Spot.reaches (h : Spot s dir name) (hs : s.Sound)
    (hl : ∀ target, s.files.get? (dir ++ [name]) ≠ some (.link target)) :
    s.Reaches (Location.path (dir ++ [name])) (dir ++ [name]) :=
  reaches_child (leadsTo_path hs h.parent) hs h.proper hl

end Session

namespace Action

open Session

variable {w : WrittenPath} {data : Bytes} {p : Path}

/-- A path that reaches a location leads there. -/
theorem perform_locate (h : s.Reaches p x) (hw : w.path = p) (follow : Bool) :
    (locate follow w).perform s = (.ok ⟨x, s.files.get? x⟩, s) := by
  unfold locate
  rw [perform_query, hw, h.hasZero, if_neg Bool.false_ne_true, h.find]

theorem perform_makeDirectory_missing (h : s.Reaches p x) (hw : w.path = p) (hn : s.files.get? x = none) :
    (makeDirectory w).perform s = (.ok (), { s with files := s.files.put x .directory }) := by
  unfold makeDirectory
  rw [perform_bind_ok (perform_locate h hw false)]
  simp only [hn]
  rfl

/-- A directory is not made where something is. -/
theorem perform_makeDirectory_there (h : s.Reaches p x) (hw : w.path = p) (hn : s.files.get? x ≠ none) :
    (makeDirectory w).perform s = (.error (refuse .fileExists w), s) := by
  obtain ⟨node, hnode⟩ := Option.ne_none_iff_exists'.1 hn
  unfold makeDirectory
  rw [perform_bind_ok (perform_locate h hw false)]
  simp only [hnode]
  rfl

/-- What leads to a directory, a directory or a link, is not made again. -/
private theorem perform_makeDirectory_leads (h : s.LeadsTo w.path x) (hs : s.Sound) :
    (makeDirectory w).perform s = (.error (refuse .fileExists w), s) := by
  rw [perform_makeDirectory_base h rfl, h.hasZero hs, if_neg Bool.false_ne_true]

private theorem isDirectoryNode_of_leads (h : s.LeadsTo p x) (hs : s.Sound) :
    isDirectoryNode (s.node? true p) = true := by
  unfold Session.node?
  rw [h.hasZero hs, if_neg Bool.false_ne_true, leadsTo_iff_find.1 h]
  rfl

theorem perform_ensureDirectory_there (h : s.LeadsTo w.path x) (hs : s.Sound) :
    (ensureDirectory w).perform s = (.ok (), s) := by
  unfold ensureDirectory
  rw [perform_tryCatch, perform_makeDirectory_leads h hs]
  simp only [refuse]
  rw [perform_bind, perform_get]
  simp only [isDirectoryNode_of_leads h hs, if_true]
  rfl

theorem perform_ensureDirectory_missing (h : s.Reaches p x) (hw : w.path = p) (hn : s.files.get? x = none) :
    (ensureDirectory w).perform s = (.ok (), { s with files := s.files.put x .directory }) := by
  unfold ensureDirectory
  rw [perform_tryCatch, perform_makeDirectory_missing h hw hn]

theorem perform_ensureDirectory_file (h : s.Reaches p x) (hw : w.path = p) {old : Bytes} {flag : Bool}
    (hf : s.files.get? x = some (.file old flag)) :
    (ensureDirectory w).perform s = (.error (refuse .fileExists w), s) := by
  have hn : s.files.get? x ≠ none := by
    rw [hf]
    exact Option.some_ne_none _
  unfold ensureDirectory
  rw [perform_tryCatch, perform_makeDirectory_there h hw hn]
  simp only [refuse]
  rw [perform_bind, perform_get]
  simp only [hw, h.node?, hf, Session.isDirectoryNode]
  rfl

variable (data) in
/-- A file is written where there is nothing or a file. -/
theorem perform_writeFile (h : s.Reaches p x) (hw : w.path = p) {flag : Bool} (hf : Flagged (s.files.get? x) flag) :
    (writeFile w data).perform s = (.ok (), { s with files := s.files.put x (.file data flag) }) := by
  unfold writeFile
  rw [perform_bind_ok (perform_locate h hw true)]
  rcases hf with ⟨hnone, rfl⟩ | ⟨old, hold⟩
  · simp only [hnone]
    rfl
  · simp only [hold]
    rfl

variable (data) in
theorem perform_writeFile_directory (h : s.Reaches p x) (hw : w.path = p) (hd : s.files.get? x = some .directory) :
    (writeFile w data).perform s = (.error (refuse .isDirectory w), s) := by
  unfold writeFile
  rw [perform_bind_ok (perform_locate h hw true)]
  simp only [hd]
  rfl

/-- The content of a file is written to another place. -/
theorem perform_copyContent {source target : WrittenPath} {loc : Location} {executable : Bool} (sourceName targetName : FileName)
    (hsource : s.find true source.path = .ok ⟨loc, some (.file data executable)⟩) (hz : source.path.hasZero = false)
    (h : s.Reaches target.path x) (hne : loc ≠ x) :
    (copyContent sourceName source targetName target).perform s = (writeFile target data).perform s := by
  have hsame : s.sameEntry source.path target.path = false := by
    unfold Session.sameEntry
    rw [hsource, h.find]
    simp [beq_eq_false_iff_ne.2 hne]
  have hcontent : (query fun s => s.content? source).perform s = (.ok data, s) := by
    unfold Session.content?
    rw [perform_query, hz, if_neg Bool.false_ne_true, hsource]
  unfold copyContent
  rw [hz, h.hasZero]
  simp only [Bool.or_self, Bool.false_eq_true, if_false]
  rw [perform_bind_ok (perform_get s), hsame]
  simp only [Bool.false_eq_true, if_false]
  rw [perform_bind_ok hcontent]

theorem perform_copyFlag (h : s.Reaches p x) {source : Path} {old : Bytes} {executable flag : Bool}
    (hp : s.node? true source = some (.file old executable)) (hf : s.files.get? x = some (.file data flag)) :
    (copyFlag source p).perform s = (.ok (), { s with files := s.files.put x (.file data executable) }) := by
  unfold copyFlag
  rw [perform_bind, perform_get]
  simp only [hp]
  rw [perform_bind_ok (perform_locate (w := p.written) h rfl true)]
  simp only [hf]
  rfl

/-! ### Making directories -/

variable {place : List String} {k : Nat}

/-- What a request for a directory below another one meets. -/
theorem perform_makeDirectory_below (hway : Way s p d place) (hp : ∀ c ∈ place, IsProper c) (hc : IsProper name)
    (hw : w.path = p.append (place ++ [name])) (hd : s.files.get? (d ++ place) ≠ some .directory) :
    (makeDirectory w).perform s = (.error (refuse .noEntry w), s) ∨
      (makeDirectory w).perform s = (.error (refuse .notDirectory w), s) ∧
        s.node? true w.path = none ∧ Blocked (s.files.content d) place := by
  have hbase := hway.leads.hasZero hway.sound
  have hbottom := hway.leads.directory hway.sound
  obtain ⟨n, hn, hl⟩ := hway.leads
  have hpieces : ∀ c ∈ place, IsPlain c ∧ c.utf8ByteSize ≤ maxName := fun c h => ⟨(hp c h).plain, (hp c h).short⟩
  have hfind : ∀ follow, s.find follow w.path = s.files.walk follow (maxLinks - n) d (place ++ [name]) := by
    intro follow
    rw [hw]
    exact Files.walk_of_leads hl hn (.inl (by simp))
  have hz : w.path.hasZero = false := by
    rw [hw, Path.hasZero_append, hbase, Bool.false_or, List.any_eq_false]
    intro c hmem
    rcases List.mem_append.1 hmem with hmem | hmem
    · simpa using (hp c hmem).noZero
    · rw [List.mem_singleton.1 hmem]
      simpa using hc.noZero
  have hlocate : ∀ code, s.find false w.path = .error code → (makeDirectory w).perform s = (.error (refuse code w), s) := by
    intro code hcode
    have hl : (locate false w).perform s = (.error (refuse code w), s) := by
      unfold locate
      rw [perform_query, hz, if_neg Bool.false_ne_true, hcode]
    unfold makeDirectory
    rw [perform_bind_error hl]
  rcases Files.walk_blocked (maxLinks - n) false hpieces hway.clear hbottom hd (by simp : [name] ≠ []) with
    h | ⟨h, first, hfirst, data, executable, hfile⟩
  · exact .inl (hlocate _ ((hfind false).trans h))
  · refine .inr ⟨hlocate _ ((hfind false).trans h), ?_, first, hfirst, ?_⟩
    · unfold Session.node?
      rw [hz, if_neg Bool.false_ne_true, hfind]
      rcases Files.walk_blocked (maxLinks - n) true hpieces hway.clear hbottom hd (by simp : [name] ≠ []) with
        h | ⟨h, -⟩ <;> rw [h]
    · unfold Files.content
      rw [hfile]
      exact ⟨nofun, nofun⟩

/-- What is stored after the directories on the way to a place have been made. -/
structure Made (before s : Session) (d : Location) (place : List String) (t : Session) : Prop where
  within : Within before t d
  free : ¬ Blocked (s.files.content d) place
  stored : ∀ y, t.files.get? y = if d <+: y ∧ y <+: d ++ place then some .directory else s.files.get? y

theorem Made.directory (h : Made before s d place t) : t.files.get? (d ++ place) = some .directory := by
  rw [h.stored, if_pos ⟨List.prefix_append _ _, List.prefix_refl _⟩]

/-- What leads to a directory still does so when directories are made below it. -/
theorem Made.leads (h : Made before s d place t) (hs : Within before s d) (hleads : s.LeadsTo p d) : t.LeadsTo p d := by
  have hworking : t.workingDir = s.workingDir := by rw [h.within.only, hs.only]
  refine hleads.mono hworking (fun y hy => ?_) fun y target hy => ?_
  · rw [h.stored]
    split
    · rfl
    · exact hy
  · rw [h.stored, if_neg, hy]
    exact fun hbelow => hs.ne_link hbelow.1 target hy

/-- Nothing has to be made where there is a directory. -/
private theorem Made.there (hs : Within before s d) (hd : s.files.get? (d ++ place) = some .directory) :
    Made before s d place s := by
  have hway : ∀ first, first <+: place → s.files.get? (d ++ first) = some .directory := fun first hfirst =>
    hs.sound.files.way hd ((List.prefix_append_right_inj d).2 hfirst)
  refine ⟨hs, ?_, fun y => ?_⟩
  · rintro ⟨first, hfirst, -, hold⟩
    exact hold (hway first hfirst)
  · split
    · rename_i hy
      obtain ⟨⟨first, rfl⟩, hy⟩ := hy
      exact hway first ((List.prefix_append_right_inj d).1 hy)
    · rfl

/-- The last directory is made when the ones before it are there. -/
private theorem Made.concat (h : Made before s d place t) (hn : IsProper name)
    (hnone : s.files.get? (d ++ place ++ [name]) = none) :
    Made before s d (place ++ [name]) { t with files := t.files.put (d ++ place ++ [name]) .directory } := by
  have hold : t.files.get? (d ++ place ++ [name]) = none := by
    rw [h.stored, if_neg, hnone]
    exact fun hy => not_concat_prefix_self _ name hy.2
  refine ⟨h.within.put (List.prefix_append _ _) h.directory hn (fun _ => rfl) rfl, ?_, fun y => ?_⟩
  · rintro ⟨first, hfirst, hne, hd⟩
    rcases List.prefix_concat_iff.1 hfirst with rfl | hfirst
    · unfold Files.content at hne
      rw [← List.append_assoc] at hne
      exact hne hnone
    · exact h.free ⟨first, hfirst, hne, hd⟩
  · dsimp only
    rw [Files.get?_put (by simp), h.stored]
    by_cases hy : y = d ++ place ++ [name]
    · subst hy
      rw [List.append_assoc, if_pos rfl, if_pos ⟨List.prefix_append _ _, List.prefix_refl _⟩]
    · have hiff : y <+: d ++ (place ++ [name]) ↔ y <+: d ++ place := by
        rw [← List.append_assoc, List.prefix_concat_iff]
        exact ⟨fun h => h.resolve_left hy, .inr⟩
      simp only [if_neg hy, hiff]

theorem perform_makePart_ok {n : Nat} {q : Path} (h : (makeDirectory (pathPart q (n + 1)).written).perform s = (.ok (), t)) :
    (makePart q (n + 1)).perform s = (.ok (), t) := by
  unfold makePart
  rw [perform_tryCatch, h]

theorem perform_makePart_there {q : Path} {n : Nat} (hs : s.Sound) (hq : s.LeadsTo (pathPart q n) x) :
    (makePart q n).perform s = (.ok (), s) := by
  cases n with
  | zero => exact perform_ensureDirectory_there hq hs
  | succ n =>
    have hmake := perform_makeDirectory_leads (w := (pathPart q (n + 1)).written) hq hs
    have hthere : isDirectoryNode (s.node? true (pathPart q (n + 1)).written.path) = true := isDirectoryNode_of_leads hq hs
    unfold makePart
    rw [perform_tryCatch, hmake]
    simp only [refuse]
    rw [perform_bind, perform_get]
    simp only [hthere, if_true]
    rfl

theorem perform_makePart_noEntry {n : Nat} {q : Path}
    (h : (makeDirectory (pathPart q (n + 1)).written).perform s =
      (.error (refuse .noEntry (pathPart q (n + 1)).written), s)) :
    (makePart q (n + 1)).perform s = (do
      makePart q n
      ensureDirectory (pathPart q (n + 1)).written : Action Unit).perform s := by
  conv_lhs => unfold makePart
  rw [perform_tryCatch, h]
  rfl

private theorem perform_makePart_refused {n : Nat} {q : Path} {code : SystemCode} (hcode : code ≠ .noEntry)
    (h : (makeDirectory (pathPart q (n + 1)).written).perform s =
      (.error (refuse code (pathPart q (n + 1)).written), s))
    (hd : s.node? true (pathPart q (n + 1)) ≠ some .directory) :
    (makePart q (n + 1)).perform s = (.error (refuse code (pathPart q (n + 1)).written), s) := by
  have hthere : isDirectoryNode (s.node? true (pathPart q (n + 1)).written.path) = false :=
    isDirectoryNode_eq_false.2 hd
  unfold makePart
  rw [perform_tryCatch, h]
  cases code with
  | noEntry => exact absurd rfl hcode
  | _ =>
    simp only [refuse]
    rw [perform_bind, perform_get]
    simp only [hthere, Bool.false_eq_true, if_false]
    rfl

/-- Making a directory in one that is there. -/
private theorem perform_makePart_inside {n : Nat} {q : Path} (hs : Within before s d) (hleads : s.LeadsTo p d)
    (hname : IsProper name) (hd : s.files.get? (d ++ place) = some .directory)
    (hpart : pathPart q (n + 1) = p.append (place ++ [name])) :
    (∃ t, (makePart q (n + 1)).perform s = (.ok (), t) ∧ Made before s d (place ++ [name]) t) ∨
    ∃ code w, (makePart q (n + 1)).perform s = (.error (refuse code w), s) ∧
      Blocked (s.files.content d) (place ++ [name]) := by
  have hl := hs.ne_link ((List.prefix_append d place).trans (List.prefix_append _ [name]))
  have hreaches := reaches_child (hleads.append hs.sound hd) hs.sound hname hl
  have hchild : pathPart q (n + 1) = (p.append place).child name := hpart.trans (Path.append_append ..).symm
  cases hnode : s.files.get? (d ++ place ++ [name]) with
  | none =>
    exact .inl ⟨_, perform_makePart_ok (perform_makeDirectory_missing hreaches hchild hnode),
      (Made.there hs hd).concat hname hnode⟩
  | some node =>
    cases node with
    | directory =>
      rw [List.append_assoc] at hnode
      have hthere : s.LeadsTo (pathPart q (n + 1)) (d ++ (place ++ [name])) := by
        rw [hpart]
        exact hleads.append hs.sound hnode
      exact .inl ⟨s, perform_makePart_there hs.sound hthere, Made.there hs hnode⟩
    | file data executable =>
      have hne : s.files.get? (d ++ place ++ [name]) ≠ none := by
        rw [hnode]
        exact nofun
      refine .inr ⟨.fileExists, _, perform_makePart_refused (by decide)
        (perform_makeDirectory_there hreaches hchild hne) ?_, _, List.prefix_refl _, ?_⟩
      · rw [hchild, hreaches.node?, hnode]
        exact nofun
      · unfold Files.content
        rw [← List.append_assoc, hnode]
        exact ⟨nofun, nofun⟩
    | link target => exact absurd hnode (hl target)

/-- Making a directory in one that is missing, which is made before. -/
private theorem perform_makePart_beyond {n : Nat} {q : Path} (hs : Within before s d) (hleads : s.LeadsTo p d)
    (hp : ∀ c ∈ place, IsProper c) (hname : IsProper name) (hd : s.files.get? (d ++ place) ≠ some .directory)
    (hpart : pathPart q (n + 1) = p.append (place ++ [name]))
    (hinit : (∃ t, (makePart q n).perform s = (.ok (), t) ∧ Made before s d place t) ∨
      ∃ code w, (makePart q n).perform s = (.error (refuse code w), s) ∧ Blocked (s.files.content d) place) :
    (∃ t, (makePart q (n + 1)).perform s = (.ok (), t) ∧ Made before s d (place ++ [name]) t) ∨
    ∃ code w, (makePart q (n + 1)).perform s = (.error (refuse code w), s) ∧
      Blocked (s.files.content d) (place ++ [name]) := by
  have hway : Way s p d place := ⟨hs.sound, hleads, fun first target _ _ => hs.noLink first target⟩
  rcases perform_makeDirectory_below hway hp hname (w := (pathPart q (n + 1)).written) hpart hd with
    h | ⟨h, hnode, hblocked⟩
  · rw [perform_makePart_noEntry h]
    rcases hinit with ⟨t, hperform, hmade⟩ | ⟨code, w, hperform, hblocked⟩
    · have hnone : s.files.get? (d ++ place ++ [name]) = none := hs.sound.files.get?_below hd (by simp)
      have hnone' : t.files.get? (d ++ place ++ [name]) = none := by
        rw [hmade.stored, if_neg, hnone]
        exact fun hy => not_concat_prefix_self _ name hy.2
      have hreaches : t.Reaches ((p.append place).child name) (d ++ place ++ [name]) :=
        reaches_child ((hmade.leads hs hleads).append hmade.within.sound hmade.directory) hmade.within.sound hname
          (by rw [hnone']; exact nofun)
      refine .inl ⟨_, ?_, hmade.concat hname hnone⟩
      rw [perform_bind_ok hperform]
      exact perform_ensureDirectory_missing hreaches (hpart.trans (Path.append_append ..).symm) hnone'
    · refine .inr ⟨code, w, ?_, hblocked.mono (List.prefix_append _ _)⟩
      rw [perform_bind_error hperform]
  · refine .inr ⟨.notDirectory, _, perform_makePart_refused (by decide) h ?_, hblocked.mono (List.prefix_append _ _)⟩
    exact fun hd => by cases hnode.symm.trans hd

/-- Making a directory with its parents makes what is missing, unless a file is in the way. -/
theorem perform_makePart (hs : Within before s d) (hleads : s.LeadsTo p d) (hp : ∀ c ∈ place, IsProper c)
    (hk : k ≤ place.length) :
    (∃ t, (makePart (p.append place) (p.parts.length + k)).perform s = (.ok (), t) ∧
      Made before s d (place.take k) t) ∨
    ∃ code w, (makePart (p.append place) (p.parts.length + k)).perform s = (.error (refuse code w), s) ∧
      Blocked (s.files.content d) (place.take k) := by
  induction k with
  | zero =>
    have hzero := pathPart_append p place 0
    rw [List.take_zero, Path.append_nil] at hzero
    rw [List.take_zero]
    refine .inl ⟨s, perform_makePart_there hs.sound (hzero ▸ hleads), Made.there hs ?_⟩
    rw [List.append_nil, hs.directory]
  | succ k ih =>
    obtain ⟨name, htake⟩ : ∃ name, place.take (k + 1) = place.take k ++ [name] :=
      ⟨place[k], List.take_succ_eq_append_getElem hk⟩
    have hmem : ∀ c ∈ place.take (k + 1), IsProper c := fun c hc => hp c (List.mem_of_mem_take hc)
    have hpart := pathPart_append p place (k + 1)
    rw [htake] at hmem hpart ⊢
    have hname : IsProper name := hmem name (by simp)
    have hfirst : ∀ c ∈ place.take k, IsProper c := fun c hc => hmem c (List.mem_append_left _ hc)
    by_cases hd : s.files.get? (d ++ place.take k) = some .directory
    · exact perform_makePart_inside hs hleads hname hd hpart
    · exact perform_makePart_beyond hs hleads hfirst hname hd hpart (ih (by omega))

/-- Making a directory below another one, with what is missing between them. -/
theorem perform_makeDirectories (hs : Within before s d) (hleads : s.LeadsTo p d) (hp : ∀ c ∈ place, IsProper c) :
    (∃ t, (makeDirectories (p.append place)).perform s = (.ok (), t) ∧ Made before s d place t) ∨
    ∃ code w, (makeDirectories (p.append place)).perform s = (.error (refuse code w), s) ∧
      Blocked (s.files.content d) place := by
  have h := perform_makePart (k := place.length) hs hleads hp (Nat.le_refl _)
  rw [List.take_length] at h
  unfold makeDirectories
  rw [show (p.append place).parts.length = p.parts.length + place.length from List.length_append]
  exact h

theorem perform_makeDirectories_there (h : s.LeadsTo p x) (hs : s.Sound) :
    (makeDirectories p).perform s = (.ok (), s) := by
  refine perform_makePart_there (x := x) hs ?_
  unfold pathPart
  rwa [List.take_length]

/-- Making the parent of a place below a directory. -/
theorem perform_makeParent (hs : Within before s d) (hp : ∀ c ∈ place, IsProper c) :
    (∃ t, (makeDirectories (Location.path (d ++ place)).parent).perform s = (.ok (), t) ∧
      Made before s d place.dropLast t) ∨
    ∃ code w, (makeDirectories (Location.path (d ++ place)).parent).perform s = (.error (refuse code w), s) ∧
      Blocked (s.files.content d) place.dropLast := by
  have hparent : (Location.path (d ++ place)).parent = Location.path (d ++ place).dropLast := rfl
  by_cases hnil : place = []
  · subst hnil
    refine .inl ⟨s, ?_, Made.there hs (by rw [List.dropLast_nil, List.append_nil, hs.directory])⟩
    rw [hparent, List.append_nil]
    exact perform_makeDirectories_there (leadsTo_path hs.sound (hs.sound.files.get?_dropLast hs.directory)) hs.sound
  · rw [hparent, List.dropLast_append_of_ne_nil hnil]
    exact perform_makeDirectories hs (leadsTo_path hs.sound hs.directory) fun c hc => hp c (List.dropLast_subset _ hc)

/-- What is at the place itself stays as it is when its parent is made. -/
theorem Made.content_eq (h : Made before s d place.dropLast t) (hs : Within before s d) :
    t.files.content (d ++ place) = s.files.content (d ++ place) := by
  funext names
  unfold Files.content
  rw [h.stored]
  split
  · rename_i hy
    have hlength := hy.2.length_le
    simp only [List.length_append, List.length_dropLast] at hlength
    have hplace : place = [] := List.eq_nil_iff_length_eq_zero.2 (by omega)
    have hnames : names = [] := List.eq_nil_iff_length_eq_zero.2 (by omega)
    rw [hplace, hnames, List.append_nil, List.append_nil, hs.directory]
  · rfl

end Action

end Handout
