import Handout.Proofs.Archive.Entries
import Handout.Proofs.Files.Draft

/-!
# The archive of a directory
-/

namespace Handout

open Handout.Action

variable {s t u : Session} {d k : Location} {top : Option Path} {format : Archive.Format}

namespace Archive

open Session

/-- The entries depend on where paths lead. -/
private theorem agrees_entries {draft source : Path} {paths : List Path} (hw : s.workingDir = t.workingDir)
    (hfind : ∀ p ∈ source :: paths, ∀ follow, s.find follow p = t.find follow p) :
    Agrees s t (entries format draft source top paths) := by
  have hlocate : ∀ p ∈ source :: paths, ∀ follow, Agrees s t (locate follow p.written) := fun p hp follow =>
    Agrees.query (by rw [show p.written.path = p from rfl, hfind p hp])
  have hentries : ∀ p ∈ source :: paths, ∀ name, Agrees s t (entriesFor format draft p name) := by
    intro p hp name
    unfold entriesFor
    cases format with
    | zip =>
      refine Agrees.bind (Agrees.bind (hlocate p hp true) fun place _ => ?_) fun _ _ => Agrees.pure _
      split
      · exact Agrees.throw _
      · split
        · exact Agrees.throw _
        · exact Agrees.pure _
    | tar =>
      refine Agrees.bind (Agrees.get_bind (by rw [hw]) (Agrees.pure _)) fun b _ => ?_
      cases b with
      | true => exact Agrees.pure _
      | false =>
        refine Agrees.bind (Agrees.bind (hlocate p hp false) fun place _ => ?_) fun _ _ => Agrees.pure _
        split
        · exact Agrees.throw _
        · exact Agrees.pure _
  have hrest : ∀ first : List Entry, Agrees s t (do
      let rest ← paths.mapM (entriesBelow format draft source top)
      return first ++ rest.flatten) := by
    intro first
    refine (Agrees.mapM fun p hp => ?_).bind fun _ _ => Agrees.pure _
    unfold entriesBelow
    split
    · exact Agrees.throw _
    · exact hentries p (List.mem_cons_of_mem _ hp) _
  unfold entries
  cases top with
  | none => exact (Agrees.pure _).bind fun first _ => hrest first
  | some name => exact (hentries source (List.mem_cons_self ..) name).bind fun first _ => hrest first

/-! ### Two sessions -/

/-- Apart from what is below a location, two sessions are the same, and since `u` only leaves have changed. -/
structure Twins (u : Session) (k : Location) (s t : Session) : Prop where
  left : s.workingDir = u.workingDir
  right : t.workingDir = u.workingDir
  shape : s.files.SameShape u.files k
  outside : ∀ x, ¬ k <+: x → t.files.get? x = s.files.get? x

theorem Twins.self (h : Twins u k s t) : Twins u k s s := ⟨h.left, h.left, h.shape, fun _ _ => rfl⟩

theorem Twins.symm (h : Twins u k s t) : Twins u k t s := by
  refine ⟨h.right, h.left, fun x hx => ?_, fun x hx => (h.outside x hx).symm⟩
  rw [h.outside x hx]
  exact h.shape x hx

theorem Twins.find (h : Twins u k s t) {p : Path} (ha : Avoids u p k) (follow : Bool) :
    s.find follow p = t.find follow p := by
  have hfind := ha.find s.files t.files h.shape h.outside [] (fun c hc => absurd hc List.not_mem_nil) follow
  rw [Path.append_nil] at hfind
  have hunder : ∀ s : Session, s.workingDir = u.workingDir → s.find follow p = { u with files := s.files }.find follow p := by
    intro s hs
    unfold Session.find
    rw [hs]
  rw [hunder s h.left, hunder t h.right, hfind]

theorem Twins.apart (h : Twins u k s t) {p : Path} (ha : Avoids u p k) {follow : Bool} {place : Place}
    (hp : s.find follow p = .ok place) : ¬ k <+: place.location := by
  refine ha.apart s.files h.shape [] (fun c hc => absurd hc List.not_mem_nil) follow place ?_
  rw [Path.append_nil]
  unfold Session.find at hp ⊢
  rwa [h.left] at hp

/-- A file is stored in the place of a leaf. -/
private theorem Twins.put (h : Twins u k s t) {loc : Location} (hne : loc ≠ []) (hleaf : IsLeaf (s.files.get? loc))
    (data : Bytes) (executable : Bool) :
    Twins u k { s with files := s.files.put loc (.file data executable) }
      { t with files := t.files.put loc (.file data executable) } := by
  refine ⟨h.left, h.right, fun x hx => ?_, fun x hx => ?_⟩
  · dsimp only
    rw [Files.get?_put hne]
    split
    · rename_i he
      refine .inr ⟨.inr ⟨data, executable, rfl⟩, ?_⟩
      rcases h.shape x hx with hsame | ⟨-, hu⟩
      · rw [← hsame, he]
        exact hleaf
      · exact hu
    · exact h.shape x hx
  · dsimp only
    rw [Files.get?_put hne, Files.get?_put hne, h.outside x hx]

/-- Apart from what is below a location, the same is stored in two sessions. -/
def SameOutside (k : Location) (s t : Session) : Prop := ∀ x, ¬ k <+: x → t.files.get? x = s.files.get? x

theorem writeFile_twins {w : WrittenPath} (ha : Avoids u w.path k) (data : Bytes) :
    Relates (Twins u k) (writeFile w data) (writeFile w data) (fun _ => Twins u k) (Same fun _ => Twins u k) := by
  unfold writeFile
  refine ((locate_relates fun s t h => h.find ha true).mono (fun _ _ hst => hst)
    (fun place s t hst => (⟨hst.1, hst.2.2⟩ : Twins u k s t ∧ s.find true w.path = .ok place)) fun _ _ _ _ hst => hst).bind
    fun place => ?_
  have hput : ∀ executable, place.node ≠ some .directory → IsLeaf place.node →
      Relates (fun s t => Twins u k s t ∧ s.find true w.path = .ok place)
        (edit fun f => f.put place.location (.file data executable))
        (edit fun f => f.put place.location (.file data executable)) (fun _ => Twins u k) (Same fun _ => Twins u k) := by
    intro executable hnode hleaf
    refine Relates.edit fun s t hst => ?_
    obtain ⟨dir, c, hloc, hget⟩ := Files.walk_leaf hst.2 hnode
    rw [hloc]
    exact hst.1.put (by simp) (hget ▸ hleaf) _ _
  split
  · rename_i hnode
    exact hput false (by simp [hnode]) (.inl hnode)
  · rename_i old executable hnode
    exact hput executable (by simp [hnode]) (.inr ⟨old, executable, hnode⟩)
  · exact Relates.throw fun _ _ hst => ⟨rfl, hst.1⟩

theorem rename_twins (source target : WrittenPath) (hs : Avoids u source.path k) (ht : Avoids u target.path k) :
    Relates (Twins u k) (rename source target) (rename source target) (fun _ => SameOutside k)
      (Same fun _ => Twins u k) := by
  unfold rename
  split
  · exact Relates.throw_bind fun _ _ hst => ⟨rfl, hst⟩
  refine Relates.get_bind fun s t hst => ?_
  dsimp only
  rw [← hst.find hs false, ← hst.find ht false]
  have hfail : ∀ code, Relates (fun a b => a = s ∧ b = t)
      (throw (.system (.rename code source.text target.text)) : Action Unit)
      (throw (.system (.rename code source.text target.text))) (fun _ => SameOutside k) (Same fun _ => Twins u k) := by
    refine fun code => Relates.throw ?_
    rintro a b ⟨rfl, rfl⟩
    exact ⟨rfl, hst⟩
  split
  · exact hfail _
  · exact hfail _
  · exact hfail _
  · rename_i old node place hold hplace
    split
    · exact hfail _
    · exact hfail _
    · rename_i node _ _ hnode hdir
      have hold' : (⟨old, some node⟩ : Place).node ≠ some .directory := fun h => hnode (Option.some.inj h)
      split
      · refine Relates.pure ?_
        rintro a b ⟨rfl, rfl⟩
        exact hst.outside
      · refine Relates.edit ?_
        rintro a b ⟨rfl, rfl⟩ x hx
        obtain ⟨dir, c, hloc, -⟩ := Files.walk_leaf hplace hdir
        obtain ⟨dir', c', hloc', -⟩ := Files.walk_leaf hold hold'
        dsimp only at hloc' ⊢
        rw [hloc, hloc', Files.get?_put (by simp), Files.get?_put (by simp), Files.get?_erase (by simp),
          Files.get?_erase (by simp), hst.outside x hx]

/-- A removed draft is removed in both sessions. -/
theorem removeFile_twins {w : WrittenPath} (ha : Avoids u w.path k) :
    Relates (Twins u k) (removeFile w) (removeFile w) (fun _ => SameOutside k) (Same fun _ => Twins u k) := by
  unfold removeFile
  refine ((locate_relates fun s t h => h.find ha false).mono (fun _ _ hst => hst)
    (fun place s t hst => (⟨hst.1, hst.2.2⟩ : Twins u k s t ∧ s.find false w.path = .ok place)) fun _ _ _ _ hst => hst).bind
    fun place => ?_
  split
  · exact Relates.throw fun _ _ hst => ⟨rfl, hst.1⟩
  · exact Relates.throw fun _ _ hst => ⟨rfl, hst.1⟩
  · rename_i stored hdir hnode
    refine Relates.edit fun s t hst x hx => ?_
    obtain ⟨dir, c, hloc, -⟩ := Files.walk_leaf hst.2 (by rw [hnode]; exact fun h => hdir (Option.some.inj h))
    dsimp only
    rw [hloc, Files.get?_erase (by simp), Files.get?_erase (by simp), hst.1.outside x hx]

/-- What is in a directory is found as before when a file is written elsewhere. -/
theorem find_put (h : s.Listable d) {loc : Location} (hloc : ¬ d <+: loc) (hne : loc ≠ [])
    (hleaf : s.files.get? loc ≠ some .directory) {rel : List String} (hn : s.files.get? (d ++ rel) ≠ none) (node : Node)
    (follow : Bool) :
    ({ s with files := s.files.put loc node } : Session).find follow (Location.path (d ++ rel)) =
      s.find follow (Location.path (d ++ rel)) := by
  have hplain : ∀ c ∈ d ++ rel, IsPlain c := fun c hc => (proper_of_exists h.sound hn hc).plain
  have hclear : s.files.Clear [] (d ++ rel) := h.sound.files.clear hn (h.noLink rel)
  refine (Files.walk_congr hplain hclear fun first _ hfirst => ?_).symm
  rw [List.nil_append]
  refine (Files.get?_put_of_ne hne ?_).symm
  rintro rfl
  -- a directory is not overwritten
  rcases List.prefix_or_prefix_of_prefix hfirst (List.prefix_append d rel) with hway | hbelow
  · obtain ⟨rest, hrest⟩ := hfirst
    by_cases hnil : rest = []
    · rw [hnil, List.append_nil] at hrest
      rw [hrest] at hloc
      exact hloc (List.prefix_append _ _)
    · rw [← hrest] at hn
      exact hleaf (h.sound.files.ancestor hn hnil)
  · exact hloc hbelow

variable (top format) in
/-- Writing to a draft elsewhere leaves the entries of a directory as they are. -/
theorem perform_entries_drafting (h : s.Listable d) {w : WrittenPath} {data : Bytes} (hst : Twins u k s s)
    (hk : k <+: d) (ha : Avoids u w.path k) {rels : List (List String)}
    (hn : ∀ rel ∈ rels, s.files.get? (d ++ rel) ≠ none) (hw : (writeFile w data).perform s = (.ok (), t)) :
    (entries format w.path d.path top (rels.map fun rel => Location.path (d ++ rel))).perform t =
      (((withTop top rels).mapM (entriesAt format s.workingDir w.path d.path top (s.files.content d))).map List.flatten, t) := by
  rcases perform_writeFile_cases w data s with ⟨e, he⟩ | ⟨loc, executable, -, hf, hne, hflag, hput⟩
  · cases he.symm.trans hw
  obtain rfl := (Prod.mk.inj (hput.symm.trans hw)).2
  have hloc : ¬ d <+: loc := fun hd => hst.apart ha hf (hk.trans hd)
  have hfind : ∀ p ∈ d.path :: rels.map (fun rel => Location.path (d ++ rel)), ∀ follow,
      s.find follow p = ({ s with files := s.files.put loc (.file data executable) } : Session).find follow p := by
    intro p hp follow
    obtain ⟨rel, rfl, hrel⟩ : ∃ rel, p = Location.path (d ++ rel) ∧ s.files.get? (d ++ rel) ≠ none := by
      rcases List.mem_cons.1 hp with rfl | hp
      · exact ⟨[], by rw [List.append_nil], by rw [List.append_nil, h.directory]; exact Option.some_ne_none _⟩
      · obtain ⟨rel, hrel, rfl⟩ := List.mem_map.1 hp
        exact ⟨rel, rfl, hn rel hrel⟩
    exact (find_put h hloc hne hflag.ne_directory hrel _ follow).symm
  have hagrees : Agrees s { s with files := s.files.put loc (.file data executable) }
      (entries format w.path d.path top (rels.map fun rel => Location.path (d ++ rel))) := agrees_entries rfl hfind
  obtain ⟨-, hright, hsame⟩ := hagrees
  have hentries : (entries format w.path d.path top (rels.map fun rel => Location.path (d ++ rel))).perform s =
      (((withTop top rels).mapM (entriesAt format s.workingDir w.path d.path top (s.files.content d))).map List.flatten, s) :=
    perform_entries w.path (h.listed.reaches_all hn)
  rw [hentries] at hsame
  exact Prod.ext hsame.symm hright

/-- Two sessions with the same directory, apart from what else is below a location. -/
structure SameDirectory (u : Session) (k d : Location) (s t : Session) : Prop extends Twins u k s t where
  below : k <+: d
  left_listable : s.Listable d
  right_listable : t.Listable d
  content : s.files.content d = t.files.content d

/-- The draft of an archive is written alike. -/
private theorem draft_relates {draft output : Path} (hdraft : Avoids u draft k) (houtput : Avoids u output k)
    (hst : SameDirectory u k d s t) :
    Meets (fun _ => SameOutside k) (Same fun _ => Twins u k)
      ((do
        writeFile draft.written []
        (do
          let es ← entries format draft d.path top ((s.files.listing d).map fun rel => Location.path (d ++ rel))
          writeFile draft.written (encode format es))
        rename draft.written output.written : Action Unit).perform s)
      ((do
        writeFile draft.written []
        (do
          let es ← entries format draft d.path top ((t.files.listing d).map fun rel => Location.path (d ++ rel))
          writeFile draft.written (encode format es))
        rename draft.written output.written : Action Unit).perform t) := by
  have hexists : ∀ {s : Session}, s.Listable d → ∀ rel ∈ s.files.listing d, s.files.get? (d ++ rel) ≠ none :=
    fun hs rel hrel => ((Files.mem_listing hs.sound.files).1 hrel).2
  have hempty := writeFile_twins (w := draft.written) hdraft [] s t hst.toTwins
  rcases hw : (writeFile draft.written []).perform s with ⟨r, s'⟩
  rcases hw' : (writeFile draft.written []).perform t with ⟨r', t'⟩
  rw [hw, hw'] at hempty
  cases r with
  | error e =>
    cases r' with
    | ok _ => exact hempty.elim
    | error f =>
      rw [perform_bind_error hw, perform_bind_error hw']
      exact hempty
  | ok _ =>
    cases r' with
    | error f => exact hempty.elim
    | ok _ =>
      have hentries := perform_entries_drafting top format hst.left_listable hst.self hst.below
        hdraft (hexists hst.left_listable) hw
      have hentries' := perform_entries_drafting top format hst.right_listable hst.symm.self
        hst.below hdraft (hexists hst.right_listable) hw'
      have hrels : t.files.listing d = s.files.listing d :=
        (Files.listing_congr fun rel => congrFun hst.content rel).symm
      rw [hst.right, ← hst.left, ← hst.content, hrels] at hentries'
      rw [perform_bind_ok hw, perform_bind_ok hw', hrels, bind_assoc]
      generalize Except.map List.flatten (List.mapM (entriesAt format s.workingDir draft.written.path d.path top
        (s.files.content d)) (withTop top (s.files.listing d))) = result at hentries hentries'
      cases result with
      | error e =>
        rw [show draft.written.path = draft from rfl] at hentries hentries'
        rw [perform_bind_error hentries, perform_bind_error hentries']
        exact ⟨rfl, hempty.2⟩
      | ok es =>
        rw [show draft.written.path = draft from rfl] at hentries hentries'
        rw [perform_bind_ok hentries, perform_bind_ok hentries']
        exact ((writeFile_twins (w := draft.written) hdraft _).bind fun _ =>
          rename_twins draft.written output.written hdraft houtput) s' t' hempty.2

/-- An archive is created alike from the same directory in two sessions. -/
theorem create_relates {output : Path} (hdraft : Avoids u (output.addSuffix ".tmp") k) (houtput : Avoids u output k) :
    Relates (SameDirectory u k d) (create format d.path output top none) (create format d.path output top none)
      (fun _ => SameOutside k) (Same fun _ => SameOutside k) := by
  intro s t hst
  have hnoted : ∀ record, SameDirectory u k d { s with log := s.log ++ [record] } { t with log := t.log ++ [record] } :=
    fun record => ⟨⟨hst.left, hst.right, hst.shape, hst.outside⟩, hst.below, hst.left_listable.log _,
      hst.right_listable.log _, hst.content⟩
  unfold create overwriteAtomic onFailure
  dsimp only
  rw [perform_bind_ok (perform_descendants hst.left_listable.listed), perform_bind_ok (perform_descendants hst.right_listable.listed),
    perform_bind_ok (perform_note ..), perform_bind_ok (perform_note ..)]
  generalize output.addSuffix ".tmp" = draft at hdraft ⊢
  have hrepair : ∀ e, Relates (Twins u k)
      (do removeDraft draft.written; throw e : Action Unit) (do removeDraft draft.written; throw e : Action Unit)
      (fun _ => SameOutside k) (Same fun _ => SameOutside k) := by
    intro e
    refine Relates.bind ?_ fun _ => Relates.throw (R := SameOutside k) fun _ _ hst => ⟨rfl, hst⟩
    unfold removeDraft
    refine (removeFile_twins (w := draft.written) hdraft).tryCatch_same fun e => ?_
    split
    · exact Relates.pure fun _ _ hst => hst.outside
    · exact Relates.throw fun _ _ hst => ⟨rfl, hst.outside⟩
  refine Relates.during_same (R := fun a b => a = _ ∧ b = _)
    (Relates.tryCatch_same (F := fun _ => Twins u k) ?_ hrepair) _ _ _ _ ⟨rfl, rfl⟩
  rintro a b ⟨rfl, rfl⟩
  exact draft_relates hdraft houtput (hnoted _)

/-! ### One session -/

/-- The bytes of an archive with one entry for everything in a directory, and for the top-level directory. -/
def Holds (format : Format) (top : Option Path) (content : Handout.Content) (data : Bytes) : Prop :=
  ∃ rels es, rels.Nodup ∧ (∀ rel, rel ∈ rels ↔ rel ≠ [] ∧ content rel ≠ none) ∧
    Lists format top content (withTop top rels) es ∧ data = encode format es

/-- An archive that could be created is in the place of the output and has an entry for everything in the directory. -/
theorem create_written {output : Path} (hst : SameDirectory u k d s s)
    (hdraft : Avoids u (output.addSuffix ".tmp") k) (houtput : Avoids u output k)
    (hlink : ∀ loc target, s.find false (output.addSuffix ".tmp") ≠ .ok ⟨loc, some (.link target)⟩)
    (hname : format = .tar → ∀ rel, s.files.get? (d ++ rel) ≠ none →
      areSameName s.workingDir (Location.path (d ++ rel)) (output.addSuffix ".tmp") = false)
    (h : (create format d.path output top none).perform s = (.ok (), t)) :
    ∃ place data executable, s.find false output = .ok place ∧ ¬ k <+: place.location ∧
      t.files.get? place.location = some (.file data executable) ∧ Holds format top (s.files.content d) data := by
  have hnoted : ∀ record, Twins u k { s with log := s.log ++ [record] } { s with log := s.log ++ [record] } :=
    fun record => ⟨hst.left, hst.right, hst.shape, hst.outside⟩
  unfold create overwriteAtomic at h
  dsimp only at h
  rw [perform_bind_ok (perform_descendants hst.left_listable.listed), perform_bind_ok (perform_note ..)] at h
  generalize output.addSuffix ".tmp" = draft at hdraft hlink hname h
  obtain ⟨_, a, hfirst, h⟩ := ok_of_perform_bind (ok_of_perform_onFailure (ok_of_perform_during h))
  have hentries := perform_entries_drafting top format (hst.left_listable.log _) (hnoted _) hst.below hdraft
    (fun rel hrel => ((Files.mem_listing hst.left_listable.sound.files).1 hrel).2) hfirst
  obtain ⟨_, b, hbody, hrename⟩ := ok_of_perform_bind h
  obtain ⟨es, a', hes, hsecond⟩ := ok_of_perform_bind hbody
  obtain ⟨hresult, rfl⟩ := Prod.mk.inj (hentries.symm.trans hes)
  -- the draft is written twice and then renamed
  obtain ⟨loc, hwrote⟩ := wrote_of_writeFile hlink hfirst
  obtain ⟨executable, -, hafter⟩ := hwrote.after
  obtain ⟨loc', hwrote'⟩ := wrote_of_writeFile (w := draft.written) (fun x target hx => by
    cases (hafter false).symm.trans hx) hsecond
  have hwrote := hwrote.again hwrote'
  obtain ⟨executable, hfile, hafter⟩ := hwrote.after
  obtain ⟨old, node, place, hold, hplace, hdir, hend⟩ := ok_of_rename hrename
  cases (hafter false).symm.trans hold
  have hfind := hwrote.find hplace hdir
  refine ⟨_, _, executable, hfind, hst.apart houtput hfind, ?_,
    s.files.listing d, es, Files.nodup_listing, fun rel => Files.mem_listing hst.left_listable.sound.files, ?_, rfl⟩
  · rcases hend with ⟨rfl, hsame⟩ | rfl
    · rw [← hsame]
      exact hfile
    · obtain ⟨dir, c, hloc, -⟩ := Files.walk_leaf hplace hdir
      dsimp only
      rw [hloc]
      exact Files.get?_put_self (by simp)
  · cases hess : (withTop top (s.files.listing d)).mapM (entriesAt format s.workingDir draft d.path top (s.files.content d)) with
    | error e =>
      rw [show draft.written.path = draft from rfl, hess] at hresult
      cases hresult
    | ok ess =>
      rw [show draft.written.path = draft from rfl, hess] at hresult
      cases hresult
      refine lists_of_mapM (fun ht rel hrel => hname ht rel fun hn => ?_) hess
      unfold withTop at hrel
      split at hrel
      · rcases List.mem_cons.1 hrel with rfl | hrel
        · rw [List.append_nil, hst.left_listable.directory] at hn
          cases hn
        · exact ((Files.mem_listing hst.left_listable.sound.files).1 hrel).2 hn
      · exact ((Files.mem_listing hst.left_listable.sound.files).1 hrel).2 hn

end Archive

end Handout
