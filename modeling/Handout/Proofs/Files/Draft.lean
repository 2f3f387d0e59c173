import Handout.Proofs.Files.Source

/-!
# Writing by way of a draft

A file is written in the place where its path leads, and then it is found there (`Wrote`).  So a file that is written
by way of a draft either replaces what its path leads to, and nothing else changes, or nothing changes at all, whatever
fails on the way (`overwriteAtomic_ensures`); for the draft was put where there was nothing (`Drafted`).
-/

namespace Handout.Action

open Session

variable {α : Type} {s t u : Session} {p : Path} {w : WrittenPath} {loc : Location} {data : Bytes}

/-- What writing a file does. -/
theorem perform_writeFile_cases (w : WrittenPath) (data : Bytes) (s : Session) :
    (∃ e, (writeFile w data).perform s = (.error e, s)) ∨
      ∃ loc executable, w.path.hasZero = false ∧ s.find true w.path = .ok ⟨loc, s.files.get? loc⟩ ∧ loc ≠ [] ∧
        Flagged (s.files.get? loc) executable ∧
        (writeFile w data).perform s = (.ok (), { s with files := s.files.put loc (.file data executable) }) := by
  unfold writeFile
  by_cases hz : w.path.hasZero = true
  · refine .inl ⟨.zeroInPath, perform_bind_error ?_ _⟩
    unfold locate
    rw [perform_query, if_pos hz]
  cases hf : s.find true w.path with
  | error code =>
    refine .inl ⟨refuse code w, perform_bind_error ?_ _⟩
    unfold locate
    rw [perform_query, if_neg hz, hf]
  | ok place =>
    have hplace : (locate true w).perform s = (.ok place, s) := by
      unfold locate
      rw [perform_query, if_neg hz, hf]
    obtain ⟨loc, node⟩ := place
    rw [perform_bind_ok hplace]
    have hleaf : node ≠ some .directory → loc ≠ [] ∧ node = s.files.get? loc := by
      intro hn
      obtain ⟨dir, c, hloc, hnode⟩ := Files.walk_leaf hf hn
      dsimp only at hloc hnode
      rw [hloc]
      exact ⟨by simp, hnode⟩
    cases node with
    | none =>
      obtain ⟨hne, hnode⟩ := hleaf nofun
      exact .inr ⟨loc, false, by simpa using hz, by rw [← hnode], hne, .inl ⟨hnode.symm, rfl⟩, rfl⟩
    | some node =>
      cases node with
      | directory => exact .inl ⟨_, rfl⟩
      | link target => exact .inl ⟨_, rfl⟩
      | file old executable =>
        obtain ⟨hne, hnode⟩ := hleaf nofun
        exact .inr ⟨loc, executable, by simpa using hz, by rw [← hnode], hne, .inr ⟨old, hnode.symm⟩, rfl⟩

/-- What renaming a file does. -/
theorem ok_of_rename {source target : WrittenPath} (h : (rename source target).perform s = (.ok (), t)) :
    ∃ old node place, s.find false source.path = .ok ⟨old, some node⟩ ∧ s.find false target.path = .ok place ∧
      place.node ≠ some .directory ∧
      (t = s ∧ old = place.location ∨ t = { s with files := (s.files.erase old).put place.location node }) := by
  unfold rename at h
  split at h
  · cases h
  rw [perform_bind_ok (perform_get s)] at h
  dsimp only at h
  split at h
  · cases h
  · cases h
  · cases h
  · rename_i old _ place hold hplace
    split at h
    · cases h
    · cases h
    · rename_i node _ _ _ hdir
      refine ⟨old, node, place, hold, hplace, fun hd => hdir hd, ?_⟩
      split at h
      · rename_i hsame
        cases h
        exact .inl ⟨rfl, hsame⟩
      · cases h
        exact .inr rfl

/-- A file was written in the place to which a path leads, where there was nothing or a file. -/
structure Wrote (s : Session) (p : Path) (data : Bytes) (loc : Location) (t : Session) : Prop where
  ne_nil : loc ≠ []
  leaf : IsLeaf (s.files.get? loc)
  before : s.find true p = .ok ⟨loc, s.files.get? loc⟩
  after : ∃ executable, t.files.get? loc = some (.file data executable) ∧
    ∀ follow, t.find follow p = .ok ⟨loc, some (.file data executable)⟩
  others : ∀ x, x ≠ loc → t.files.get? x = s.files.get? x
  workingDir : t.workingDir = s.workingDir

theorem wrote_of_writeFile {w : WrittenPath} {data : Bytes}
    (hlink : ∀ loc target, s.find false w.path ≠ .ok ⟨loc, some (.link target)⟩)
    (h : (writeFile w data).perform s = (.ok (), t)) : ∃ loc, Wrote s w.path data loc t := by
  rcases perform_writeFile_cases w data s with ⟨e, he⟩ | ⟨loc, executable, -, hf, hne, hflag, hput⟩
  · cases he.symm.trans h
  obtain rfl := (Prod.mk.inj (hput.symm.trans h)).2
  have hleaf : IsLeaf (s.files.get? loc) := hflag.imp And.left fun ⟨data, hdata⟩ => ⟨data, executable, hdata⟩
  obtain ⟨dir, hleads, hpath, hplain, hshort, hplace | ⟨-, target, htarget⟩⟩ := entry_of_find hf hflag.ne_directory
  · have hloc : loc = dir ++ [w.path.name] := (Place.mk.inj hplace).1
    have hothers : ∀ x, x ≠ loc → (s.files.put loc (.file data executable)).get? x = s.files.get? x :=
      fun x hx => Files.get?_put_of_ne hne hx
    have hkeep : ∀ x node, ¬ IsLeaf (some node) → s.files.get? x = some node →
        (s.files.put loc (.file data executable)).get? x = some node := by
      intro x node hnode hx
      rw [hothers x, hx]
      rintro rfl
      exact hnode (hx ▸ hleaf)
    have hleads' : ({ s with files := s.files.put loc (.file data executable) } : Session).LeadsTo w.path.parent dir :=
      hleads.mono rfl (fun x => hkeep x _ (by rintro (h | ⟨_, _, h⟩) <;> cases h))
        fun x target => hkeep x _ (by rintro (h | ⟨_, _, h⟩) <;> cases h)
    have hfile : (s.files.put loc (.file data executable)).get? (dir ++ [w.path.name]) = some (.file data executable) :=
      hloc ▸ Files.get?_put_self hne
    refine ⟨loc, hne, hleaf, hf, ⟨executable, Files.get?_put_self hne, fun follow => ?_⟩, hothers, rfl⟩
    have hfind := find_child follow hleads' hplain hshort (by rw [hfile]; exact nofun)
    rwa [hfile, ← hpath, ← hloc] at hfind
  · rw [hpath] at hlink
    exact absurd (find_child_of_link hleads hplain hshort htarget) (hlink _ _)

/-- What else is reached is reached as well after a file was written. -/
theorem Wrote.reaches {q : Path} {x : Location} (h : Wrote s p data loc t) (hq : s.Reaches q x) (hx : x ≠ loc)
    (hn : s.files.get? x ≠ none) : t.Reaches q x := by
  have hkeep : ∀ y node, ¬ IsLeaf (some node) → s.files.get? y = some node → t.files.get? y = some node := by
    intro y node hnode hy
    rw [h.others y, hy]
    rintro rfl
    exact hnode (hy ▸ h.leaf)
  exact hq.keep h.workingDir (fun y => hkeep y _ (by rintro (h | ⟨_, _, h⟩) <;> cases h))
    (fun y target => hkeep y _ (by rintro (h | ⟨_, _, h⟩) <;> cases h)) (h.others x hx) hn

theorem Wrote.again {p : Path} {first second : Bytes} {loc loc' : Location} (h : Wrote s p first loc t)
    (h' : Wrote t p second loc' u) : Wrote s p second loc u := by
  obtain ⟨executable, -, hafter⟩ := h.after
  obtain rfl : loc' = loc := (Place.mk.inj (Except.ok.inj (h'.before.symm.trans (hafter true)))).1
  exact ⟨h.ne_nil, h.leaf, h.before, h'.after, fun x hx => (h'.others x hx).trans (h.others x hx),
    h'.workingDir.trans h.workingDir⟩

/-- What a path leads to, without a link in the last place, is no other for a file that was written. -/
theorem Wrote.find {p q : Path} {data : Bytes} {loc : Location} {place : Place} (h : Wrote s p data loc t)
    (hq : t.find false q = .ok place) (hn : place.node ≠ some .directory) :
    s.find false q = .ok ⟨place.location, s.files.get? place.location⟩ := by
  obtain ⟨dir, hleads, hpath, hplain, hshort, hplace | ⟨hfollow, -⟩⟩ := entry_of_find hq hn
  · cases hplace
    have hkeep : ∀ x node, ¬ IsLeaf (some node) → t.files.get? x = some node → s.files.get? x = some node := by
      intro x node hnode hx
      rw [← h.others x, hx]
      rintro rfl
      obtain ⟨executable, hfile, -⟩ := h.after
      rw [hfile] at hx
      exact hnode (.inr ⟨data, executable, hx.symm⟩)
    have hleads' : s.LeadsTo q.parent dir :=
      hleads.mono h.workingDir.symm (fun x => hkeep x _ (by rintro (h | ⟨_, _, h⟩) <;> cases h))
        fun x target => hkeep x _ (by rintro (h | ⟨_, _, h⟩) <;> cases h)
    by_cases hlink : ∃ target, s.files.get? (dir ++ [q.name]) = some (.link target)
    · obtain ⟨target, hlink⟩ := hlink
      have hfind := find_child_of_link hleads' hplain hshort hlink
      rwa [← hpath, ← hlink] at hfind
    · have hfind := find_child false hleads' hplain hshort fun target ht => hlink ⟨target, ht⟩
      rwa [← hpath] at hfind
  · cases hfollow

/-- A file that could not be renamed is where it was. -/
theorem error_of_rename {source target : WrittenPath} {e : Failure}
    (h : (rename source target).perform s = (.error e, t)) : t = s := by
  unfold rename at h
  split at h
  · cases h
    rfl
  rw [perform_bind_ok (perform_get s)] at h
  dsimp only at h
  split at h
  · cases h
    rfl
  · cases h
    rfl
  · cases h
    rfl
  · split at h
    · cases h
      rfl
    · cases h
      rfl
    · split at h <;> cases h

/-! ### A draft -/

/-- A draft was written where there was nothing. -/
structure Drafted (s : Session) (p : Path) (loc : Location) (data : Bytes) (t : Session) : Prop where
  eq : t = { s with files := s.files.put loc (.file data false) }
  free : s.files.get? loc = none
  noZero : p.hasZero = false
  wrote : Wrote s p data loc t

/-- Where nothing is found, no link is found. -/
private theorem ne_link_of_node? (hz : p.hasZero = false) (hfree : s.node? false p = none) (target : String) :
    s.find false p ≠ .ok ⟨loc, some (.link target)⟩ := by
  intro h
  unfold node? at hfree
  rw [hz, if_neg Bool.false_ne_true, h] at hfree
  cases hfree

theorem Drafted.find (h : Drafted s p loc data t) (follow : Bool) :
    t.find follow p = .ok ⟨loc, some (.file data false)⟩ := by
  obtain ⟨executable, hfile, hfind⟩ := h.wrote.after
  rw [h.eq] at hfile
  cases (Files.get?_put_self h.wrote.ne_nil).symm.trans hfile
  exact hfind follow

/-- Where there is nothing a draft is written, or nothing happens. -/
theorem writeFile_drafts (hfree : s.node? false w.path = none) (data : Bytes) :
    Ensures (fun t => t = s) (writeFile w data) (fun _ t => ∃ loc, Drafted s w.path loc data t) fun _ t => t = s := by
  intro t ht
  obtain rfl := ht
  rcases perform_writeFile_cases w data t with ⟨e, he⟩ | ⟨loc, executable, hz, hf, hne, hflag, hput⟩
  · rw [he]
    exact rfl
  · obtain ⟨loc', hwrote⟩ := wrote_of_writeFile (fun loc target => ne_link_of_node? hz hfree target) hput
    obtain rfl : loc' = loc := (Place.mk.inj (Except.ok.inj (hwrote.before.symm.trans hf))).1
    have hnone : t.files.get? loc' = none := by
      obtain ⟨dir, hleads, hpath, hplain, hshort, hplace | ⟨-, target, htarget⟩⟩ := entry_of_find hf hflag.ne_directory
      · have hloc : loc' = dir ++ [w.path.name] := (Place.mk.inj hplace).1
        have hfind := find_child false hleads hplain hshort fun target ht => by
          rcases hflag with ⟨hn, -⟩ | ⟨old, hn⟩ <;> rw [hloc, ht] at hn <;> cases hn
        unfold node? at hfree
        rw [hz, if_neg Bool.false_ne_true, hpath, hfind] at hfree
        rwa [hloc]
      · exact absurd (find_child_of_link hleads hplain hshort htarget) (hpath ▸ ne_link_of_node? hz hfree target)
    obtain ⟨-, rfl⟩ | ⟨old, hold⟩ := hflag
    · rw [hput]
      exact ⟨loc', rfl, hnone, hz, hwrote⟩
    · rw [hnone] at hold
      cases hold

/-- A draft can be written again. -/
theorem Drafted.writeFile_ensures (data' : Bytes) :
    Ensures (Drafted s w.path loc data) (writeFile w data') (fun _ => Drafted s w.path loc data')
      fun _ => Drafted s w.path loc data := by
  intro t ht
  rcases perform_writeFile_cases w data' t with ⟨e, he⟩ | ⟨loc', executable, -, hf, -, hflag, hput⟩
  · rw [he]
    exact ht
  · obtain rfl : loc' = loc := (Place.mk.inj (Except.ok.inj (hf.symm.trans (ht.find true)))).1
    have hfile : t.files.get? loc' = some (.file data false) := by
      rw [ht.eq]
      exact Files.get?_put_self ht.wrote.ne_nil
    obtain rfl : executable = false := by
      rcases hflag with ⟨-, h⟩ | ⟨old, hold⟩
      · exact h
      · cases hfile.symm.trans hold
        rfl
    obtain ⟨loc'', hwrote⟩ := wrote_of_writeFile (fun x target hx => by cases (ht.find false).symm.trans hx) hput
    obtain rfl : loc'' = loc' := (Place.mk.inj (Except.ok.inj (hwrote.before.symm.trans hf))).1
    rw [hput]
    refine ⟨?_, ht.free, ht.noZero, ht.wrote.again hwrote⟩
    rw [ht.eq]
    exact congrArg (fun f => { s with files := f }) (Files.put_put ..)

/-- A draft is removed without a trace. -/
theorem Drafted.removeDraft_ensures :
    Ensures (Drafted s w.path loc data) (removeDraft w) (fun _ t => t = s) fun _ _ => False := by
  intro t ht
  have hremove : (removeFile w).perform t = (.ok (), s) := by
    have hlocate : (locate false w).perform t = (.ok ⟨loc, some (.file data false)⟩, t) := by
      unfold locate
      rw [perform_query, ht.noZero, if_neg Bool.false_ne_true, ht.find]
    unfold removeFile
    rw [perform_bind_ok hlocate]
    refine congrArg (Prod.mk _) ?_
    rw [ht.eq]
    exact congrArg (fun f => { s with files := f }) (Files.erase_put ht.wrote.ne_nil ht.free)
  unfold removeDraft
  rw [perform_tryCatch, hremove]
  exact rfl

/-- Nothing is removed where there is nothing. -/
theorem removeDraft_none (hfree : s.node? false w.path = none) :
    Ensures (fun t => t = s) (removeDraft w) (fun _ t => t = s) fun _ t => t = s := by
  have hlocate : Ensures (fun t => t = s) (locate false w) (fun place t => t = s ∧ place.node = none) fun _ t => t = s := by
    rintro _ rfl
    unfold locate
    rw [perform_query]
    unfold node? at hfree
    split
    · exact rfl
    · rename_i hz
      rw [if_neg hz] at hfree
      split
      · rename_i place hf
        rw [hf] at hfree
        exact ⟨rfl, hfree⟩
      · exact rfl
  unfold removeDraft removeFile
  refine Ensures.tryCatch (F := fun _ t => t = s) (hlocate.bind fun place => ?_) fun e => ?_
  · rintro t ⟨ht, hnode⟩
    rw [hnode]
    exact ht
  · split
    · exact Ensures.pure fun _ ht => ht
    · exact Ensures.throw fun _ ht => ht

/-! ### Replacing a file -/

/-- What a path leads to has been replaced by a regular file, and nothing else has changed. -/
def Replaced (s : Session) (p : Path) (f : Files) : Prop :=
  ∃ place data executable, s.find false p = .ok place ∧ f.get? place.location = some (.file data executable) ∧
    ∀ x, x ≠ place.location → f.get? x = s.files.get? x

/-- What a path leads to, which is no directory, has been replaced by a file with the given content, and nothing else
has changed. -/
def ReplacedBy (s : Session) (p : Path) (data : Bytes) (f : Files) : Prop :=
  ∃ place executable, s.find false p = .ok place ∧ place.node ≠ some .directory ∧
    f.get? place.location = some (.file data executable) ∧ ∀ x, x ≠ place.location → f.get? x = s.files.get? x

theorem ReplacedBy.replaced {f : Files} (h : ReplacedBy s p data f) : Replaced s p f := by
  obtain ⟨place, executable, hfind, -, hfile, hothers⟩ := h
  exact ⟨place, data, executable, hfind, hfile, hothers⟩

/-- What is renamed over a path replaces what the path leads to. -/
theorem Drafted.rename_ensures {draft : WrittenPath} (target : WrittenPath) :
    Ensures (Drafted s draft.path loc data) (rename draft target)
      (fun _ t => ReplacedBy s target.path data t.files ∧ t = { s with files := t.files })
      fun _ => Drafted s draft.path loc data := by
  intro t ht
  rcases hrun : (rename draft target).perform t with ⟨r, u⟩
  cases r with
  | error e => exact error_of_rename hrun ▸ ht
  | ok a =>
    obtain ⟨old, node, place, hold, hplace, hdir, hend⟩ := ok_of_rename hrun
    cases (ht.find false).symm.trans hold
    have hfile : t.files.get? loc = some (.file data false) := by
      rw [ht.eq]
      exact Files.get?_put_self ht.wrote.ne_nil
    obtain ⟨dir, c, hloc, hnode⟩ := Files.walk_leaf hplace hdir
    have hleaf : s.files.get? place.location ≠ some .directory := by
      by_cases hx : place.location = loc
      · rw [hx, ht.free]
        exact nofun
      · rwa [← ht.wrote.others _ hx, hloc, ← hnode]
    refine ⟨⟨_, false, ht.wrote.find hplace hdir, hleaf, ?_⟩, ?_⟩
    · rcases hend with ⟨rfl, hsame⟩ | rfl
      · refine ⟨hsame ▸ hfile, fun x hx => ht.wrote.others x ?_⟩
        rw [hsame]
        exact hx
      · have hne : place.location ≠ [] := by simp [hloc]
        refine ⟨Files.get?_put_self hne, fun x hx => ?_⟩
        dsimp only at hx ⊢
        rw [Files.get?_put_of_ne hne hx, Files.get?_erase ht.wrote.ne_nil]
        split
        · rename_i he
          rw [he, ht.free]
        · rename_i he
          exact ht.wrote.others x he
    · rcases hend with ⟨rfl, -⟩ | rfl <;> rw [ht.eq]

/-- A file that is written by way of a draft, for which there is room, is replaced and nothing else changes, or nothing
changes.  What is written is made of what is seen while the draft is empty. -/
theorem overwriteAtomic_ensures {look : WrittenPath → Action α} {f : α → Bytes} {suffix : String} {seen : α → Prop}
    (hlook : ∀ w, Looks (look w)) (hfree : s.node? false (p.addSuffix suffix) = none)
    (hseen : ∀ loc t a, Drafted s (p.addSuffix suffix) loc [] t →
      ((look (p.addSuffix suffix).written).perform t).1 = .ok a → seen a) :
    Ensures (fun t => t = s)
      (overwriteAtomic p suffix fun draft => do
        let a ← look draft
        writeFile draft (f a))
      (fun _ t => ∃ a, seen a ∧ ReplacedBy s p (f a) t.files ∧ t = { s with files := t.files }) fun _ t => t = s := by
  unfold overwriteAtomic
  dsimp only
  generalize hdraft : (p.addSuffix suffix).written = draft at hseen
  have hpath : p.addSuffix suffix = draft.path := by
    rw [← hdraft]
    rfl
  rw [hpath] at hfree hseen
  -- at a failure there is no draft, or there is one with some content
  let Pending : Session → Prop := fun t => t = s ∨ ∃ loc data, Drafted s draft.path loc data t
  refine Ensures.onFailure (F := fun _ => Pending) ?_ fun e => ?_
  · refine ((writeFile_drafts hfree []).mono (fun _ ht => ht) (fun _ _ ht => ht) fun _ _ ht => .inl ht).bind fun _ => ?_
    rintro t ⟨loc, ht⟩
    refine (Ensures.bind (P := Drafted s draft.path loc [])
      (M := fun _ t => ∃ a, seen a ∧ Drafted s draft.path loc (f a) t) (E := fun _ => Pending) ?_ fun _ => ?_) t ht
    · refine ((Looks.ensures_result (hlook draft) fun u a hu ha => hseen loc u a hu ha).mono (fun _ hu => hu)
        (fun _ _ hu => hu) fun _ _ hu => .inr ⟨loc, [], hu⟩).bind fun a => Ensures.of_and fun ha => ?_
      exact (Drafted.writeFile_ensures (f a)).mono (fun _ ht => ht) (fun _ _ ht => ⟨a, ha, ht⟩)
        fun _ _ ht => .inr ⟨loc, [], ht⟩
    · rintro t ⟨a, ha, ht⟩
      exact ((Drafted.rename_ensures p.written).mono (fun _ ht => ht) (fun _ _ ht => ⟨a, ha, ht⟩)
        fun _ _ ht => .inr ⟨loc, f a, ht⟩) t ht
  · rintro t (ht | ⟨loc, data, ht⟩)
    · exact removeDraft_none hfree t ht
    · exact (Drafted.removeDraft_ensures.mono (fun _ ht => ht) (fun _ _ ht => ht) fun _ _ ht => ht.elim) t ht

/-- When a file could be written by way of a draft that is no link, it is in the place to which its path led.  What was
written is made of what was seen while the draft was empty. -/
theorem ok_of_overwriteAtomic {look : WrittenPath → Action α} {f : α → Bytes} {suffix : String} (hlook : ∀ w, Looks (look w))
    (hlink : ∀ loc target, s.find false (p.addSuffix suffix) ≠ .ok ⟨loc, some (.link target)⟩)
    (h : (overwriteAtomic p suffix fun draft => do
        let a ← look draft
        writeFile draft (f a)).perform s = (.ok (), t)) :
    ∃ a loc u, Wrote s (p.addSuffix suffix) [] loc u ∧ ((look (p.addSuffix suffix).written).perform u).1 = .ok a ∧
      ∃ place executable, s.find false p = .ok place ∧ t.files.get? place.location = some (.file (f a) executable) := by
  unfold overwriteAtomic at h
  dsimp only at h
  generalize hdraft : (p.addSuffix suffix).written = draft at h
  have hpath : p.addSuffix suffix = draft.path := by
    rw [← hdraft]
    rfl
  rw [hpath] at hlink ⊢
  obtain ⟨_, u, hempty, hrest⟩ := ok_of_perform_bind (ok_of_perform_onFailure h)
  obtain ⟨_, v, hbody, hrename⟩ := ok_of_perform_bind hrest
  obtain ⟨loc, hfirst⟩ := wrote_of_writeFile hlink hempty
  obtain ⟨a, u', hseen, hwrite⟩ := ok_of_perform_bind hbody
  obtain rfl : u' = u := by
    have hsame := hlook draft u
    rwa [hseen] at hsame
  obtain ⟨executable, -, hafter⟩ := hfirst.after
  obtain ⟨loc', hsecond⟩ := wrote_of_writeFile (fun x target hx => by cases (hafter false).symm.trans hx) hwrite
  obtain rfl : loc' = loc := (Place.mk.inj (Except.ok.inj (hsecond.before.symm.trans (hafter true)))).1
  have hboth := hfirst.again hsecond
  refine ⟨a, loc', u', hfirst, by rw [hseen], ?_⟩
  obtain ⟨executable, hfile, hfind⟩ := hboth.after
  obtain ⟨old, node, place, hold, hplace, hdir, hend⟩ := ok_of_rename hrename
  cases (hfind false).symm.trans hold
  refine ⟨_, executable, hboth.find hplace hdir, ?_⟩
  rcases hend with ⟨rfl, hsame⟩ | rfl
  · exact hsame ▸ hfile
  · obtain ⟨dir, c, hloc, -⟩ := Files.walk_leaf hplace hdir
    exact Files.get?_put_self (by simp [hloc])

end Handout.Action
