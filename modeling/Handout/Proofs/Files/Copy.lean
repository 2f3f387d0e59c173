import Handout.Proofs.Files.Source

/-!
# Copies overlay what is there

A copy into a directory, from a path that avoids it, succeeds if and only if nothing clashes, and then it leaves the
overlay of what is offered over what was there (`Lays`); whatever fails on the way is reported.  This holds for a file
(`copyFile_lays`) and, by induction on the nesting, for a directory with everything in it (`copyTree_lays`).
-/

namespace Handout.Action

open Session

variable {before s t : Session} {d dir x loc : Location} {name c : String} {source target : WrittenPath}
  {sourceName targetName : FileName} {data : Bytes} {executable : Bool} {V : Offers} {e : Failure} {p : Path}

/-! ### Reports -/

/-- A failure that goes into the report on a copied directory. -/
def Reported : Failure → Prop
  | .system (.copies faults) => faults ≠ []
  | .system _ => True
  | _ => False

private theorem sameFile_text_ne_nil (a b : FileName) : (SystemError.sameFile a b).text.toList ≠ [] := by
  have hliteral : " are the same file".toList ≠ [] := by decide
  unfold SystemError.text
  rw [String.toList_append, ne_eq, List.append_eq_nil_iff]
  exact fun h => hliteral h.2

/-- What is reported adds to the report. -/
theorem Reported.items (h : Reported e) (source target : WrittenPath) :
    ∃ items, items ≠ [] ∧ reportItems? source target e = some items := by
  cases e with
  | system error =>
    cases error with
    | copies faults => exact ⟨faults, h, rfl⟩
    | sameFile a b => exact ⟨_, fun hnil => sameFile_text_ne_nil a b (List.map_eq_nil_iff.1 hnil), rfl⟩
    | _ => exact ⟨_, List.cons_ne_nil _ _, rfl⟩
  | _ => exact h.elim

/-! ### What a copy does -/

/-- A copy to a place below a directory: with a clash it fails, otherwise it leaves the overlay; nothing else
changes. -/
def Lays (before s : Session) (d x : Location) (V : Offers) (name : String) : Except Failure Unit × Session → Prop :=
  Ends
    (fun _ t => Within before t d ∧ (∀ y, ¬ x <+: y → t.files.get? y = s.files.get? y) ∧
      ¬ Clash V name (s.files.content x) ∧ t.files.content x = overlay V name (s.files.content x))
    fun e t => Within before t d ∧ (∀ y, ¬ x <+: y → t.files.get? y = s.files.get? y) ∧
      Clash V name (s.files.content x) ∧ Reported e

/-- A place to copy to: a directory, or an entry of one. -/
inductive Landing (s : Session) (d : Location) : Location → Prop
  | there {x : Location} (hx : d <+: x) (hd : s.files.get? x = some .directory) : Landing s d x
  | entry {dir : Location} {name : String} (hdir : d <+: dir) (h : Spot s dir name) : Landing s d (dir ++ [name])

theorem Landing.below (h : Landing s d x) : d <+: x := by
  cases h with
  | there hx _ => exact hx
  | entry hdir _ => exact hdir.trans (List.prefix_append _ _)

/-- A landing can be looked at. -/
theorem Landing.reaches (h : Landing s d x) (hs : Within before s d) : s.Reaches x.path x := by
  cases h with
  | there hx hd => exact reaches_path hs.sound (by rw [hd]; exact Option.some_ne_none _) (hs.ne_link hx)
  | entry hdir h => exact h.reaches hs.sound (hs.ne_link (hdir.trans (List.prefix_append _ _)))

/-! ### Copying a file -/

private theorem entry_path (htarget : target.path = x.path) : (target.entry c).path = Location.path (x ++ [c]) := by
  show target.path.child c = _
  rw [htarget]
  rfl

private theorem flagged_of_ne {old : Option Node} (hd : old ≠ some .directory) (hl : ∀ target, old ≠ some (.link target)) :
    ∃ flag, Flagged old flag := by
  cases old with
  | none => exact ⟨false, .inl ⟨rfl, rfl⟩⟩
  | some node =>
    cases node with
    | directory => exact absurd rfl hd
    | file data flag => exact ⟨flag, .inr ⟨data, rfl⟩⟩
    | link target => exact absurd rfl (hl target)

variable (sourceName targetName) in
/-- The content of a file is written to a place, as long as this is not a directory. -/
private theorem perform_copyContent_below (hs : Within before s d) (ha : Avoids before source.path d)
    (hsource : before.find true source.path = .ok ⟨loc, some (.file data executable)⟩)
    (hz : source.path.hasZero = false) (hdir : d <+: dir) (h : Spot s dir name)
    (htarget : target.path = Location.path (dir ++ [name])) :
    (copyContent sourceName source targetName target).perform s = (writeFile target data).perform s := by
  have hbelow : d <+: dir ++ [name] := hdir.trans (List.prefix_append _ _)
  have hreaches := h.reaches hs.sound (hs.ne_link hbelow)
  rw [← htarget] at hreaches
  have hapart : ¬ d <+: loc := ha.place_not_below hsource
  refine perform_copyContent sourceName targetName (by rw [hs.find_self ha, hsource]) hz hreaches ?_
  rintro rfl
  exact hapart hbelow

/-- A file is copied with its flag to a place that is not a directory. -/
private theorem perform_copy (hs : Within before s d) (ha : Avoids before source.path d)
    (hsource : before.find true source.path = .ok ⟨loc, some (.file data executable)⟩)
    (hz : source.path.hasZero = false) (hdir : d <+: dir) (h : Spot s dir name)
    (htarget : target.path = Location.path (dir ++ [name])) (hd : s.files.get? (dir ++ [name]) ≠ some .directory) :
    ∃ t, (do
        copyContent sourceName source targetName target
        copyFlag source.path target.path).perform s = (.ok (), t) ∧ Within before t d ∧
      ∀ y, t.files.get? y = if y = dir ++ [name] then some (.file data executable) else s.files.get? y := by
  have hne : dir ++ [name] ≠ [] := by simp
  have hl := hs.ne_link (hdir.trans (List.prefix_append _ [name]))
  obtain ⟨flag, hflag⟩ := flagged_of_ne hd hl
  have hwrite := perform_writeFile data (h.reaches hs.sound hl) htarget hflag
  rw [← perform_copyContent_below sourceName targetName hs ha hsource hz hdir h htarget]
    at hwrite
  generalize hwritten : ({ s with files := s.files.put (dir ++ [name]) (.file data flag) } : Session) = s' at hwrite
  have hs' : Within before s' d := by
    rw [← hwritten]
    exact hs.put hdir h.parent h.proper (fun hold => absurd hold hd) rfl
  have hget : ∀ y, s'.files.get? y = if y = dir ++ [name] then some (.file data flag) else s.files.get? y := by
    rw [← hwritten]
    exact fun y => Files.get?_put hne
  have hspot : Spot s' dir name := by
    refine ⟨?_, h.proper⟩
    rw [hget, if_neg (by simp), h.parent]
  have hfile : s'.files.get? (dir ++ [name]) = some (.file data flag) := by rw [hget, if_pos rfl]
  have hnode : s'.node? true source.path = some (.file data executable) := by
    rw [hs'.node? ha]
    unfold Session.node?
    rw [hz, if_neg Bool.false_ne_true, hsource]
  refine ⟨_, ?_, hs'.put hdir hspot.parent hspot.proper (?_ : _ → Node.file data executable = _) rfl, ?_⟩
  · rw [perform_bind_ok hwrite]
    rw [htarget]
    exact perform_copyFlag (hspot.reaches hs'.sound (by rw [hfile]; exact nofun)) hnode hfile
  · rw [hfile]
    exact nofun
  · intro y
    dsimp only
    rw [Files.get?_put hne, hget]
    split <;> rfl

variable (sourceName targetName) in
/-- What is no file is not copied as one. -/
private theorem perform_copyContent_refused (hz : source.path.hasZero = false) (hz' : target.path.hasZero = false)
    (hf : ∀ loc data executable, s.find true source.path ≠ .ok ⟨loc, some (.file data executable)⟩) :
    ∃ e, (copyContent sourceName source targetName target).perform s = (.error e, s) ∧ Reported e := by
  unfold copyContent
  rw [hz, hz']
  simp only [Bool.or_self, Bool.false_eq_true, if_false]
  rw [perform_bind_ok (perform_get s)]
  by_cases hsame : s.sameEntry source.path target.path = true
  · rw [if_pos hsame]
    exact ⟨_, rfl, trivial⟩
  · rw [if_neg hsame]
    have hcontent : ∃ code, s.content? source = .error (refuse code source) := by
      unfold Session.content?
      rw [hz, if_neg Bool.false_ne_true]
      split
      · exact ⟨_, rfl⟩
      · rename_i loc data executable hfile
        exact absurd hfile (hf _ _ _)
      · exact ⟨_, rfl⟩
      · exact ⟨_, rfl⟩
    obtain ⟨code, hcode⟩ := hcontent
    refine ⟨refuse code source, ?_, trivial⟩
    have hquery : (query fun s => s.content? source).perform s = (.error (refuse code source), s) := by
      rw [perform_query, hcode]
    rw [perform_bind_error hquery]

/-- A file is copied into a directory under its own name, unless there is a directory of this name. -/
private theorem lays_inside (hb : before.Sound) (hs : Within before s d) (ha : Avoids before source.path d)
    (hz : source.path.hasZero = false)
    (hfile : before.find true source.path = .ok ⟨loc, some (.file data executable)⟩) (hx : d <+: x)
    (hdir : s.files.get? x = some .directory) (htarget : target.path = x.path) :
    Lays before s d x (before.offers source.path) source.path.name ((do
      copyContent sourceName source targetName (target.entry source.path.name)
      copyFlag source.path (target.entry source.path.name).path).perform s) := by
  have hoffer : before.offers source.path [] = some (.file data executable) := by
    rw [offers_nil, offer?_of_file hfile hz]
  have hcontent : s.files.content x [] = some .directory := by
    unfold Files.content
    rw [List.append_nil, hdir]
  obtain ⟨init, c, -, hname, hproper⟩ := proper_of_file hb hfile
  have hspot : Spot s x c := ⟨hdir, hproper⟩
  have hinside := entry_path (c := c) htarget
  rw [hname]
  by_cases hthere : s.files.get? (x ++ [c]) = some .directory
  · have hl := hs.ne_link (hx.trans (List.prefix_append _ [c]))
    have hwrite := perform_writeFile_directory data (hspot.reaches hs.sound hl) hinside hthere
    rw [← perform_copyContent_below sourceName targetName hs ha hfile hz hx hspot hinside] at hwrite
    rw [perform_bind_error hwrite]
    exact ⟨hs, fun _ _ => rfl, (clash_file hoffer).2 ⟨hcontent, hthere⟩, trivial⟩
  · obtain ⟨t, hperform, ht, hget⟩ := perform_copy hs ha hfile hz hx hspot hinside hthere
    rw [hperform]
    refine ⟨ht, fun y hy => ?_, fun hclash => hthere ((clash_file hoffer).1 hclash).2, ?_⟩
    · rw [hget, if_neg]
      rintro rfl
      exact hy (List.prefix_append _ _)
    · funext names
      rw [overlay_file_inside hoffer hcontent]
      unfold Files.content
      rw [hget]
      simp only [List.append_right_inj]

/-- A file is copied over what is no directory. -/
private theorem lays_over (hs : Within before s d) (ha : Avoids before source.path d) (hz : source.path.hasZero = false)
    (hfile : before.find true source.path = .ok ⟨loc, some (.file data executable)⟩) (hx : Landing s d x)
    (hdir : s.files.get? x ≠ some .directory) (htarget : target.path = x.path) :
    Lays before s d x (before.offers source.path) source.path.name ((do
      copyContent sourceName source targetName target
      copyFlag source.path target.path).perform s) := by
  have hoffer : before.offers source.path [] = some (.file data executable) := by
    rw [offers_nil, offer?_of_file hfile hz]
  have hcontent : s.files.content x [] ≠ some .directory := by
    unfold Files.content
    rwa [List.append_nil]
  cases hx with
  | there _ hd => exact absurd hd hdir
  | entry hbelow hspot =>
    obtain ⟨t, hperform, ht, hget⟩ := perform_copy hs ha hfile hz hbelow hspot htarget hdir
    rw [hperform]
    refine ⟨ht, fun y hy => ?_, fun hclash => hcontent ((clash_file hoffer).1 hclash).1, ?_⟩
    · rw [hget, if_neg]
      rintro rfl
      exact hy (List.prefix_refl _)
    · funext names
      cases names with
      | nil =>
        rw [overlay_file_nil hoffer hcontent]
        unfold Files.content
        rw [hget, List.append_nil, if_pos rfl]
      | cons c rest =>
        rw [overlay_file_cons hoffer hcontent]
        unfold Files.content
        rw [hget, if_neg (by simp)]

/-- From a path at which there is neither a file nor a directory nothing is copied. -/
private theorem lays_nothing (hs : Within before s d) (ha : Avoids before source.path d) (hz : source.path.hasZero = false)
    (hd : ∀ loc, ¬ before.LeadsTo source.path loc)
    (hfile : ∀ loc data executable, before.find true source.path ≠ .ok ⟨loc, some (.file data executable)⟩)
    (hzero : target.path.hasZero = false) :
    Lays before s d x (before.offers source.path) source.path.name ((do
      copyContent sourceName source targetName target
      copyFlag source.path target.path).perform s) := by
  have hneither := offer?_of_neither hd hfile
  rw [← offers_nil] at hneither
  obtain ⟨e, hperform, he⟩ := perform_copyContent_refused sourceName targetName (s := s) hz hzero fun loc data executable h =>
    hfile loc data executable (by rwa [hs.find_self ha] at h)
  rw [perform_bind_error hperform]
  exact ⟨hs, fun _ _ => rfl, clash_of_neither hneither, he⟩

variable (sourceName targetName) in
/-- Copying what is no directory. -/
theorem copyFile_lays (hb : before.Sound) (hs : Within before s d) (ha : Avoids before source.path d)
    (hz : source.path.hasZero = false) (hd : ∀ loc, ¬ before.LeadsTo source.path loc) (hx : Landing s d x)
    (htarget : target.path = x.path) :
    Lays before s d x (before.offers source.path) source.path.name
      ((copyFile sourceName source targetName target).perform s) := by
  have hzero : target.path.hasZero = false := by
    rw [htarget]
    exact (hx.reaches hs).hasZero
  unfold copyFile
  rw [perform_bind_ok (perform_get s), htarget, (hx.reaches hs).node? true, ← htarget]
  by_cases hfile : ∃ loc data executable, before.find true source.path = .ok ⟨loc, some (.file data executable)⟩
  · obtain ⟨loc, data, executable, hfile⟩ := hfile
    split
    · rename_i hdir
      exact lays_inside hb hs ha hz hfile hx.below (isDirectoryNode_iff.1 hdir) htarget
    · rename_i hdir
      exact lays_over hs ha hz hfile hx (fun h => hdir (isDirectoryNode_iff.2 h)) htarget
  · have hnone : ∀ loc data executable, before.find true source.path ≠ .ok ⟨loc, some (.file data executable)⟩ :=
      fun loc data executable h => hfile ⟨loc, data, executable, h⟩
    split
    · exact lays_nothing hs ha hz hd hnone (Path.hasZero_child hzero (Path.noZero_name hz))
    · exact lays_nothing hs ha hz hd hnone hzero

/-! ### Copying a directory -/

/-- A directory is there after it has been ensured, unless there is a file. -/
theorem ensureDirectory_lands {w : WrittenPath} (hs : Within before s d) (hx : Landing s d x) (hw : w.path = x.path) :
    (∃ t, (ensureDirectory w).perform s = (.ok (), t) ∧ Within before t d ∧ t.files.get? x = some .directory ∧
      (∀ y, y ≠ x → t.files.get? y = s.files.get? y) ∧
      (s.files.get? x = none ∨ s.files.get? x = some .directory)) ∨
    ∃ e, (ensureDirectory w).perform s = (.error e, s) ∧ Reported e ∧ s.files.get? x ≠ none ∧
      s.files.get? x ≠ some .directory := by
  cases hnode : s.files.get? x with
  | none =>
    cases hx with
    | there _ hd =>
      rw [hd] at hnode
      cases hnode
    | entry hdir hspot =>
      refine .inl ⟨_, perform_ensureDirectory_missing (hspot.reaches hs.sound (by rw [hnode]; exact nofun)) hw hnode,
        hs.put hdir hspot.parent hspot.proper (fun _ => rfl) rfl, ?_, fun y hy => ?_, .inl rfl⟩
      · exact Files.get?_put_self (by simp)
      · exact Files.get?_put_of_ne (by simp) hy
  | some node =>
    cases node with
    | directory =>
      exact .inl ⟨s, perform_ensureDirectory_there (hw ▸ leadsTo_path hs.sound hnode) hs.sound, hs, hnode, fun _ _ => rfl,
        .inr rfl⟩
    | file old flag =>
      exact .inr ⟨_, perform_ensureDirectory_file (hx.reaches hs) hw hnode, trivial, nofun, nofun⟩
    | link target => exact absurd hnode (hs.ne_link hx.below target)

/-- While a directory is being copied, the names that are done are overlaid, and the others are as before; what has
failed is reported. -/
structure Laying (before s : Session) (d x : Location) (V : Offers) (done : List String) (faults : List CopyFault)
    (t : Session) : Prop where
  within : Within before t d
  there : t.files.get? x = some .directory
  outside : ∀ y, ¬ x <+: y → t.files.get? y = s.files.get? y
  rest : ∀ c, c ∉ done → under (t.files.content x) c = under (s.files.content x) c
  laid : faults = [] → ∀ c ∈ done, ¬ Clash (under V c) c (under (s.files.content x) c) ∧
    under (t.files.content x) c = overlay (under V c) c (under (s.files.content x) c)
  clash : faults ≠ [] → ∃ c ∈ done, Clash (under V c) c (under (s.files.content x) c)

variable {done : List String} {faults items : List CopyFault} {u : Session}

/-- What one name adds, in the part that does not depend on its outcome. -/
private theorem Laying.other (hout : ∀ y, ¬ x ++ [c] <+: y → u.files.get? y = t.files.get? y) {b : String}
    (hb : b ≠ c) : under (u.files.content x) b = under (t.files.content x) b := by
  funext names
  refine hout _ fun h => ?_
  have h := (List.prefix_append_right_inj x).1 h
  rw [List.cons_prefix_cons] at h
  exact hb h.1.symm

private theorem Laying.frame (h : Laying before s d x V done faults t)
    (hout : ∀ y, ¬ x ++ [c] <+: y → u.files.get? y = t.files.get? y) :
    u.files.get? x = some .directory ∧ (∀ y, ¬ x <+: y → u.files.get? y = s.files.get? y) ∧
      ∀ b, b ∉ done ++ [c] → under (u.files.content x) b = under (s.files.content x) b := by
  refine ⟨?_, fun y hy => ?_, fun b hb => ?_⟩
  · rw [hout x (not_concat_prefix_self x c), h.there]
  · rw [hout y fun h => hy ((List.prefix_append _ _).trans h), h.outside y hy]
  · rw [List.mem_append, List.mem_singleton, not_or] at hb
    rw [Laying.other hout hb.2, h.rest b hb.1]

/-- A name is copied. -/
private theorem Laying.ok (h : Laying before s d x V done faults t) (hc : c ∉ done)
    (hl : Lays before t d (x ++ [c]) (under V c) c (.ok (), u)) : Laying before s d x V (done ++ [c]) faults u := by
  obtain ⟨hu, hout, hclash, hcontent⟩ := hl
  rw [← Files.under_content, h.rest c hc] at hclash
  rw [← Files.under_content, ← Files.under_content, h.rest c hc] at hcontent
  obtain ⟨hthere, houtside, hrest⟩ := h.frame hout
  refine ⟨hu, hthere, houtside, hrest, fun hnil b hb => ?_, fun hne => ?_⟩
  · by_cases hbc : b = c
    · subst hbc
      exact ⟨hclash, hcontent⟩
    · have hdone : b ∈ done := by simpa [hbc] using hb
      rw [Laying.other hout hbc]
      exact h.laid hnil b hdone
  · obtain ⟨b, hb, hclash⟩ := h.clash hne
    exact ⟨b, List.mem_append_left _ hb, hclash⟩

/-- A name is not copied, and this is reported. -/
private theorem Laying.error (h : Laying before s d x V done faults t) (hc : c ∉ done)
    (hl : Lays before t d (x ++ [c]) (under V c) c (.error e, u)) (hitems : items ≠ []) :
    Laying before s d x V (done ++ [c]) (faults ++ items) u := by
  obtain ⟨hu, hout, hclash, -⟩ := hl
  rw [← Files.under_content, h.rest c hc] at hclash
  obtain ⟨hthere, houtside, hrest⟩ := h.frame hout
  refine ⟨hu, hthere, houtside, hrest, fun hnil => ?_, fun _ => ⟨c, by simp, hclash⟩⟩
  exact absurd (List.append_eq_nil_iff.1 hnil).2 hitems

/-- What `copyTree` does with one name of a directory. -/
def copyEntry (fuel : Nat) (source target : WrittenPath) (faults : List CopyFault) (name : String) :
    Action (List CopyFault) :=
  tryCatch
    (do
      if ← isTreeEntry (source.entry name) then copyTree fuel (source.entry name) (target.entry name)
      else copyFile (.entry name) (source.entry name) (.written (target.entry name).text) (target.entry name)
      return faults)
    fun e =>
      match reportItems? (source.entry name) (target.entry name) e with
      | some items => return faults ++ items
      | none => throw e

theorem copyTree_succ (fuel : Nat) (source target : WrittenPath) :
    copyTree (fuel + 1) source target = (do
      let names ← names source
      ensureDirectory target
      let faults ← names.foldlM (copyEntry fuel source target) []
      if faults.isEmpty then return () else throw (.system (.copies faults))) := rfl

/-- Whatever an entry of a directory is, it is laid at its place. -/
private theorem Laying.lays_entry (hb : before.Sound) (hz : source.path.hasZero = false)
    (ha : Avoids before source.path d) (hl : before.LeadsTo source.path loc)
    (hn : before.files.get? (loc ++ [c]) ≠ none) (hx : d <+: x) {fuel : Nat}
    (ih : ∀ t e, Within before t d → before.LeadsTo (source.path.child c) e → Landing t d (x ++ [c]) →
      Lays before t d (x ++ [c]) (before.offers (source.path.child c)) c
        ((copyTree fuel (source.entry c) (target.entry c)).perform t))
    (h : Laying before s d x V done faults t) (htarget : target.path = x.path) :
    ∃ o, Lays before t d (x ++ [c]) (before.offers (source.path.child c)) c o ∧
      (do
        if ← isTreeEntry (source.entry c) then copyTree fuel (source.entry c) (target.entry c)
        else copyFile (.entry c) (source.entry c) (.written (target.entry c).text) (target.entry c)
        return faults : Action (List CopyFault)).perform t = (o.1.map fun _ => faults, o.2) := by
  have hproper : IsProper c := hb.files.proper hn
  have hchild := ha.child hproper.plain
  have hland : Landing t d (x ++ [c]) := .entry hx ⟨h.there, hproper⟩
  have hz' := Path.hasZero_child hz hproper.noZero
  have hexists : t.files.get? (loc ++ [c]) ≠ none := by
    rw [← Files.mem_names, h.within.names loc (ha.not_below hl), Files.mem_names]
    exact hn
  rcases isTreeEntry_cases h.within.sound ((h.within.leadsTo ha).2 hl) hz hexists (w := source.entry c) rfl with
    ⟨htree, e, he⟩ | ⟨htree, he⟩ | ⟨code, htree, hcode⟩
  · refine ⟨_, ih t e h.within ((h.within.leadsTo hchild).1 he) hland, ?_⟩
    rw [perform_bind_ok htree, if_pos rfl]
    exact perform_bind_pure _ faults t
  · have hfile := copyFile_lays (.entry c) (.written (target.entry c).text) hb h.within
      (show Avoids before (source.entry c).path d from hchild) hz'
      (fun e hl => he e ((h.within.leadsTo hchild).2 hl)) hland (entry_path htarget)
    rw [show (source.entry c).path.name = c by simp [WrittenPath.entry, Path.name, Path.child]] at hfile
    refine ⟨_, hfile, ?_⟩
    rw [perform_bind_ok htree, if_neg Bool.false_ne_true]
    exact perform_bind_pure _ faults t
  · refine ⟨(.error (refuse code (source.entry c)), t), ⟨h.within, fun _ _ => rfl, ?_, trivial⟩, ?_⟩
    · rw [h.within.find_self hchild] at hcode
      have hneither := offer?_of_neither (s := before) (p := source.path.child c)
        (fun e he => by cases hcode.symm.trans (leadsTo_iff_find.1 he))
        (fun e data executable he => by cases hcode.symm.trans he)
      exact clash_of_neither (by rwa [← offers_nil] at hneither)
    · rw [perform_bind_error htree]
      rfl

/-- What a copy of a directory does at one of its entries. -/
private theorem Laying.entry (hb : before.Sound) (hz : source.path.hasZero = false)
    (ha : Avoids before source.path d) (hl : before.LeadsTo source.path loc)
    (hn : before.files.get? (loc ++ [c]) ≠ none) (hx : d <+: x) {fuel : Nat}
    (ih : ∀ t e, Within before t d → before.LeadsTo (source.path.child c) e → Landing t d (x ++ [c]) →
      Lays before t d (x ++ [c]) (before.offers (source.path.child c)) c
        ((copyTree fuel (source.entry c) (target.entry c)).perform t))
    (hc : c ∉ done) (htarget : target.path = x.path) :
    Ensures (Laying before s d x (before.offers source.path) done faults) (copyEntry fuel source target faults c)
      (Laying before s d x (before.offers source.path) (done ++ [c])) fun _ _ => False := by
  intro t h
  obtain ⟨⟨r, u⟩, hlays, hperform⟩ := h.lays_entry hb hz ha hl hn hx ih htarget
  rw [← under_offers (hb.files.proper hn).plain] at hlays
  unfold copyEntry
  rw [perform_tryCatch, hperform]
  cases r with
  | ok _ => exact h.ok hc hlays
  | error e =>
    obtain ⟨items, hne, hitems⟩ := Reported.items hlays.2.2.2 (source.entry c) (target.entry c)
    simp only [Except.map, hitems]
    exact h.error hc hlays hne

private theorem mem_names_iff (hb : before.Sound) (hl : before.LeadsTo p loc) (hz : p.hasZero = false) :
    c ∈ before.files.names loc ↔ before.offers p [c] ≠ none := by
  rw [Files.mem_names]
  by_cases hc : IsPlain c
  · have hoffers : before.offers p [c] = before.offer? (p.child c) := by
      rw [← offers_nil, ← under_offers hc]
      rfl
    rw [hoffers, ne_eq, ne_eq, offer?_child_eq_none hb hl hz hc]
  · have hoffers : before.offers p [c] = none := congrFun (under_offers_of_not_plain hc) []
    rw [hoffers]
    exact ⟨fun hn => absurd (hb.files.proper hn).plain hc, fun h => absurd rfl h⟩

/-- When all names are done, the directory is laid. -/
private theorem Laying.lays (h : Laying before s d x V done faults t) (hV : V [] = some .directory)
    (hdone : ∀ c, c ∈ done ↔ V [c] ≠ none)
    (hold : s.files.get? x = none ∨ s.files.get? x = some .directory) (name : String) :
    Lays before s d x V name
      ((if faults.isEmpty then return () else throw (.system (.copies faults)) : Action Unit).perform t) := by
  have hnil : ¬ (s.files.content x [] ≠ none ∧ s.files.content x [] ≠ some .directory) := by
    unfold Files.content
    rw [List.append_nil]
    rintro ⟨hnone, hd⟩
    rcases hold with hold | hold
    · exact hnone hold
    · exact hd hold
  by_cases hf : faults = []
  · subst hf
    refine ⟨h.within, h.outside, fun hclash => ?_, ?_⟩
    · rcases (clash_directory hV).1 hclash with hclash | ⟨c, hc, hclash⟩
      · exact hnil hclash
      · exact (h.laid rfl c ((hdone c).2 hc)).1 hclash
    · funext names
      cases names with
      | nil =>
        rw [overlay_directory hV]
        unfold Files.content
        rw [List.append_nil, h.there]
      | cons c rest =>
        have hentry : under (t.files.content x) c = under (overlay V name (s.files.content x)) c := by
          rw [under_overlay hV]
          by_cases hc : c ∈ done
          · exact (h.laid rfl c hc).2
          · have hnone : under V c [] = none := by
              by_contra hne
              exact hc ((hdone c).2 hne)
            rw [overlay_none hnone, h.rest c hc]
        exact congrFun hentry rest
  · rw [if_neg (by simpa using hf)]
    obtain ⟨c, hc, hclash⟩ := h.clash hf
    exact ⟨h.within, h.outside, (clash_directory hV).2 (.inr ⟨c, (hdone c).1 hc, hclash⟩), hf⟩

/-- When the directory has been ensured, no name is done. -/
private theorem Laying.start (ht : Within before t d) (hthere : t.files.get? x = some .directory)
    (hout : ∀ y, y ≠ x → t.files.get? y = s.files.get? y) : Laying before s d x V [] [] t where
  within := ht
  there := hthere
  outside y hy := by
    refine hout y ?_
    rintro rfl
    exact hy (List.prefix_refl _)
  rest c _ := by
    funext names
    exact hout _ (by simp)
  laid _ c hc := absurd hc List.not_mem_nil
  clash h := absurd rfl h

/-- The loop over the names of a directory, of which each comes once. -/
private theorem Laying.loop {fuel : Nat}
    (hentry : ∀ done c faults, before.files.get? (loc ++ [c]) ≠ none → c ∉ done →
      Ensures (Laying before s d x V done faults) (copyEntry fuel source target faults c)
        (Laying before s d x V (done ++ [c])) fun _ _ => False) :
    Ensures (Laying before s d x V [] []) ((before.files.names loc).foldlM (copyEntry fuel source target) [])
      (Laying before s d x V (before.files.names loc)) fun _ _ => False := by
  refine Ensures.foldlM (Laying before s d x V) (fun done c rest faults hall => hentry done c faults ?_ ?_) []
  · exact Files.mem_names.1 (by rw [hall]; simp)
  · have hnodup : (before.files.names loc).Nodup := Files.nodup_names
    rw [hall] at hnodup
    exact fun hc => (List.nodup_append.1 hnodup).2.2 c hc c (List.mem_cons_self ..) rfl

/-- Copying a directory, when the nesting is within the bound. -/
theorem copyTree_lays (hb : before.Sound) {fuel : Nat} (hs : Within before s d) (ha : Avoids before source.path d)
    (hz : source.path.hasZero = false) (hl : before.LeadsTo source.path loc)
    (hfuel : ∀ names e, (∀ c ∈ names, IsPlain c) → before.LeadsTo (source.path.append names) e → names.length < fuel)
    (hx : Landing s d x) (htarget : target.path = x.path) (name : String) :
    Lays before s d x (before.offers source.path) name ((copyTree fuel source target).perform s) := by
  induction fuel generalizing source target x s loc name with
  | zero =>
    have hnil := hfuel [] loc (fun c hc => absurd hc List.not_mem_nil) (by rwa [Path.append_nil])
    cases hnil
  | succ fuel ih =>
    have hfind := leadsTo_iff_find.1 hl
    have hoffer := offer?_of_leads hl hz
    rw [← offers_nil] at hoffer
    rw [copyTree_succ]
    by_cases hlocked : before.locked.contains source.path = true
    · rw [hlocked, if_pos rfl] at hoffer
      have hnames : (names source).perform s = (.error (refuse .denied source), s) := by
        unfold Action.names Session.names?
        rw [perform_query, hs.locked, if_pos hlocked]
      rw [perform_bind_error hnames]
      exact ⟨hs, fun _ _ => rfl, clash_of_neither (.inr hoffer), trivial⟩
    rw [if_neg hlocked] at hoffer
    have hnames : (names source).perform s = (.ok (before.files.names loc), s) := by
      unfold Action.names
      rw [perform_query, hs.names? ha]
      unfold Session.names?
      rw [if_neg hlocked, hz, if_neg Bool.false_ne_true, hfind]
    rw [perform_bind_ok hnames]
    rcases ensureDirectory_lands hs hx htarget with ⟨t, hensure, ht, hthere, hout, hold⟩ | ⟨e, hensure, he, hne, hnd⟩
    · rw [perform_bind_ok hensure]
      have hloop : Ensures (Laying before s d x (before.offers source.path) [] [])
          ((before.files.names loc).foldlM (copyEntry fuel source target) [])
          (Laying before s d x (before.offers source.path) (before.files.names loc)) fun _ _ => False := by
        refine Laying.loop fun done c faults hn hc => ?_
        have hproper : IsProper c := hb.files.proper hn
        refine Laying.entry hb hz ha hl hn hx.below (fun u e hu he hland => ?_) hc htarget
        refine ih hu (ha.child hproper.plain) (Path.hasZero_child hz hproper.noZero) he (fun names e hp he => ?_) hland
          (entry_path htarget) c
        rw [show (source.entry c).path = source.path.append [c] from rfl, Path.append_append] at he
        have hlength := hfuel (c :: names) e (List.forall_mem_cons.2 ⟨hproper.plain, hp⟩) he
        rw [List.length_cons] at hlength
        omega
      have hdone := hloop t (.start ht hthere hout)
      rw [perform_bind]
      generalize ((before.files.names loc).foldlM (copyEntry fuel source target) []).perform t = o at hdone ⊢
      obtain ⟨r, u⟩ := o
      cases r with
      | ok faults => exact Laying.lays hdone hoffer (fun c => mem_names_iff hb hl hz) hold name
      | error e => exact hdone.elim
    · rw [perform_bind_error hensure]
      refine ⟨hs, fun _ _ => rfl, (clash_directory hoffer).2 (.inl ?_), he⟩
      unfold Files.content
      rw [List.append_nil]
      exact ⟨hne, hnd⟩

/-! ### Copying to a place below a directory -/

variable {place : List String} {o : Except Failure Unit × Session}

/-- How a copy fails: a path with a zero is only met behind the directories on the way. -/
def Fails (old : Content) (place : List String) (p : Path) (e : Failure) : Prop :=
  Reported e ∧ (Blocked old place.dropLast ∨ p.hasZero = false) ∨
    e = .zeroInPath ∧ p.hasZero = true ∧ ¬ Blocked old place.dropLast

/-- A copy to the place of some names below a directory: if something is in the way it fails, otherwise it leaves the
deposit. -/
def Deposits (before s : Session) (d : Location) (place : List String) (p : Path) :
    Except Failure Unit × Session → Prop :=
  Ends
    (fun _ t => Within before t d ∧ ¬ Obstructed (before.offers p) p.name place (s.files.content d) ∧
      t.files.content d = deposit (before.offers p) p.name place (s.files.content d))
    fun e t => Within before t d ∧ Obstructed (before.offers p) p.name place (s.files.content d) ∧
      Fails (s.files.content d) place p e

private theorem Lays.deposits (hs : Within before s d) (ht : Made before s d place.dropLast t) (hz : p.hasZero = false)
    (h : Lays before t d (d ++ place) (before.offers p) p.name o) : Deposits before s d place p o := by
  obtain ⟨r, u⟩ := o
  have hcontent : (fun rest => s.files.content d (place ++ rest)) = t.files.content (d ++ place) := by
    rw [ht.content_eq hs]
    funext rest
    unfold Files.content
    rw [List.append_assoc]
  cases r with
  | error e => exact ⟨h.1, .inr (by rw [hcontent]; exact h.2.2.1), .inl ⟨h.2.2.2, .inr hz⟩⟩
  | ok _ =>
    obtain ⟨hu, hout, hclash, hlaid⟩ := h
    refine ⟨hu, fun hobstructed => ?_, ?_⟩
    · rcases hobstructed with hblocked | hclash'
      · exact ht.free hblocked
      · rw [hcontent] at hclash'
        exact hclash hclash'
    · funext names
      by_cases hplace : place <+: names
      · obtain ⟨rest, rfl⟩ := hplace
        rw [deposit_append, hcontent, ← hlaid]
        unfold Files.content
        rw [List.append_assoc]
      · have hd : ¬ d ++ place <+: d ++ names := fun hd => hplace ((List.prefix_append_right_inj d).1 hd)
        unfold Files.content deposit
        rw [hout _ hd, ht.stored, if_neg hplace]
        have hiff : (d <+: d ++ names ∧ d ++ names <+: d ++ place.dropLast) ↔ names <+: place := by
          constructor
          · rintro ⟨-, hn⟩
            exact ((List.prefix_append_right_inj d).1 hn).trans (List.dropLast_prefix _)
          · intro hn
            refine ⟨List.prefix_append _ _, (List.prefix_append_right_inj d).2 ?_⟩
            rcases List.eq_nil_or_concat' place with rfl | ⟨init, c, rfl⟩
            · exact absurd List.nil_prefix hplace
            · rw [List.dropLast_concat]
              rcases List.prefix_concat_iff.1 hn with rfl | hn
              · exact absurd (List.prefix_refl _) hplace
              · exact hn
        simp only [hiff]

/-- A directory that is reached by names from another one lies within the bound on the nesting. -/
theorem length_lt_treeDepth (hs : s.Sound) {names : List String} (hp : ∀ c ∈ names, IsPlain c) {e : Location}
    (hl : s.LeadsTo (p.append names) e) : names.length < treeDepth s.files := by
  obtain ⟨n, hn, hl⟩ := hl
  obtain ⟨m, k, l, hm, he, rfl⟩ := Files.leads_append.1 hl
  have hmd := hm.directory hs.files (hs.start p)
  have hed := he.directory hs.files hmd
  have hheight : e.length ≤ s.files.height := Files.length_le_height (by rw [hed]; exact Option.some_ne_none _)
  have hlength := Files.length_le_of_leads hs.files hmd hp he
  have hlinks : l * (s.files.height + 1) ≤ maxLinks * (s.files.height + 1) := Nat.mul_le_mul_right _ (by omega)
  unfold treeDepth
  rw [Nat.mul_comm, Nat.add_mul maxLinks]
  omega

private theorem perform_copyFile_zero (hz : p.hasZero = true) :
    (copyFile sourceName p.written targetName target).perform s = (.error .zeroInPath, s) := by
  have hcopy : ∀ targetName target, (copyContent sourceName p.written targetName target).perform s =
      (.error .zeroInPath, s) := by
    intro targetName target
    unfold copyContent
    rw [show p.written.path.hasZero = true from hz]
    rfl
  unfold copyFile
  rw [perform_bind_ok (perform_get s)]
  split
  · exact perform_bind_error (hcopy _ _) _
  · exact perform_bind_error (hcopy _ _) _

/-- When the directories on the way are made, a copy can be made in the place. -/
private theorem landing_of_made (ht : Made before s d place.dropLast t) (hp : ∀ c ∈ place, IsProper c) :
    Landing t d (d ++ place) := by
  rcases List.eq_nil_or_concat' place with rfl | ⟨init, c, rfl⟩
  · exact .there (List.prefix_append _ _) (by rw [List.append_nil, ht.within.directory])
  · rw [← List.append_assoc]
    refine .entry (List.prefix_append _ _) ⟨?_, hp c (by simp)⟩
    have hdir := ht.directory
    rwa [List.dropLast_concat] at hdir

/-- A question for a directory has an answer, unless a name is too long. -/
private theorem perform_isDirectory (hz : p.hasZero = false) :
    (∃ loc, s.LeadsTo p loc ∧ (isDirectory p).perform s = (.ok true, s)) ∨
    (∀ loc, ¬ s.LeadsTo p loc) ∧ ((isDirectory p).perform s = (.ok false, s) ∨
      (isDirectory p).perform s = (.error (refuse .nameTooLong p.written), s) ∧ s.find true p = .error .nameTooLong) := by
  unfold isDirectory Session.isDirectory? Session.look
  rw [perform_query, hz, if_neg Bool.false_ne_true]
  cases hfind : s.find true p with
  | ok place =>
    obtain ⟨loc, node⟩ := place
    by_cases hnode : node = some .directory
    · subst hnode
      exact .inl ⟨loc, leadsTo_iff_find.2 hfind, rfl⟩
    · refine .inr ⟨fun loc hl => ?_, .inl ?_⟩
      · cases hfind.symm.trans (leadsTo_iff_find.1 hl)
        exact hnode rfl
      · show (Except.ok (isDirectoryNode node), s) = _
        rw [isDirectoryNode_eq_false.2 hnode]
  | error code =>
    refine .inr ⟨fun loc hl => ?_, ?_⟩
    · cases hfind.symm.trans (leadsTo_iff_find.1 hl)
    cases code with
    | nameTooLong => exact .inr ⟨rfl, rfl⟩
    | _ => exact .inl rfl

/-- A copy to a place below a directory, from a path that avoids the directory. -/
theorem copyMerge_deposits (hb : before.Sound) (hs : Within before s d) (ha : Avoids before p d)
    (hp : ∀ c ∈ place, IsProper c) :
    Deposits before s d place p ((copyMerge p (Location.path (d ++ place))).perform s) := by
  unfold copyMerge
  rcases perform_makeParent hs hp with ⟨t, hperform, ht⟩ | ⟨code, w, hperform, hblocked⟩
  · rw [perform_bind_ok hperform]
    have hland := landing_of_made ht hp
    by_cases hz : p.hasZero = true
    · have hlook : (isDirectory p).perform t = (.ok false, t) := by
        unfold isDirectory Session.isDirectory? Session.look
        rw [perform_query, if_pos hz]
        rfl
      rw [perform_bind_ok hlook, if_neg Bool.false_ne_true, perform_copyFile_zero hz]
      have hoffer : before.offers p [] = none := by
        rw [offers_nil]
        unfold Session.offer?
        rw [if_pos hz]
      exact ⟨ht.within, .inr (clash_of_neither (.inl hoffer)), .inr ⟨rfl, hz, ht.free⟩⟩
    · have hz : p.hasZero = false := by simpa using hz
      rcases perform_isDirectory hz with ⟨loc, hl, hlook⟩ | ⟨hno, hlook⟩
      · rw [perform_bind_ok hlook, if_pos rfl, perform_bind_ok (perform_get t)]
        refine Lays.deposits hs ht hz (copyTree_lays hb ht.within ha hz ((ht.within.leadsTo ha).1 hl)
          (fun names e hnames he => ?_) hland rfl p.name)
        exact length_lt_treeDepth ht.within.sound hnames ((ht.within.leadsTo_append ha hnames).2 he)
      · have hno' : ∀ loc, ¬ before.LeadsTo p loc := fun loc hl => hno loc ((ht.within.leadsTo ha).2 hl)
        rcases hlook with hlook | ⟨hlook, hfind⟩
        · rw [perform_bind_ok hlook, if_neg Bool.false_ne_true]
          have htarget : (Location.path (d ++ place)).written.path = (d ++ place).path := rfl
          have hcopy := copyFile_lays (.path p) (.path (Location.path (d ++ place))) hb ht.within
            (show Avoids before p.written.path d from ha) hz hno' hland htarget
          exact Lays.deposits hs ht hz hcopy
        · rw [perform_bind_error hlook]
          rw [ht.within.find_self ha] at hfind
          have hneither := offer?_of_neither hno' fun loc data executable h => by cases hfind.symm.trans h
          rw [← offers_nil] at hneither
          exact ⟨ht.within, .inr (clash_of_neither hneither), .inl ⟨trivial, .inr hz⟩⟩
  · rw [perform_bind_error hperform]
    exact ⟨hs, .inl hblocked, .inl ⟨trivial, .inl hblocked⟩⟩

end Handout.Action
