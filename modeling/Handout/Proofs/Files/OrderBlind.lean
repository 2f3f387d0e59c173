import Handout.Files.Change
import Handout.Proofs.Files.Reorder
import Handout.Proofs.Files.Traverse
import Handout.Proofs.TwoSessions

/-!
# Operations that do not see the order of entries

An operation is blind to the order of entries (`OrderBlind`) if in two sessions that differ in this order it has the
same result or the same failure, and leaves two such sessions.  Listing a directory is the one operation that is not.
What follows on it has to be the same for permuted names (`names_bind_meets`): they are sorted, perhaps after a test
has left some of them out (`filterM_bind_meets`).  Where a test fails on several entries, the order decides on which
one it fails first, and all that is known is that both sessions fail in this way (`Alike`).
-/

namespace Handout.Action

open Session

variable {α β σ : Type} {s t u : Session} {act : Action α} {p dir : Path} {w : WrittenPath}

/-- In sessions that differ in the order of entries, an operation has one outcome and leaves such sessions. -/
structure OrderBlind (act : Action α) : Prop where
  relates : Relates Reordered act act (fun _ => Reordered) (Same fun _ => Reordered)

namespace OrderBlind

theorem pure (a : α) : OrderBlind (Pure.pure a) := ⟨Relates.pure fun _ _ hst => hst⟩

theorem throw (e : Failure) : OrderBlind (MonadExcept.throw e : Action α) := ⟨Relates.throw fun _ _ hst => ⟨rfl, hst⟩⟩

theorem query {f : Session → Except Failure α} (h : ∀ s t : Session, s.Reordered t → f s = f t) :
    OrderBlind (Action.query f) := ⟨Relates.query_same h⟩

theorem edit {change : Files → Files} (h : ∀ f g : Files, f.Reordered g → (change f).Reordered (change g)) :
    OrderBlind (Action.edit change) := ⟨Relates.edit fun _ _ hst => hst.edit (h _ _ hst.files)⟩

theorem modify {change : Session → Session} (h : ∀ s t : Session, s.Reordered t → (change s).Reordered (change t)) :
    OrderBlind (modifyGet fun s => ((), change s)) := ⟨fun s t hst => ⟨rfl, h s t hst⟩⟩

theorem note (level : LogLevel) (topic : LogTopic) (text : String) : OrderBlind (Action.note level topic text) :=
  ⟨Relates.note fun _ _ _ hst => hst.log _ _⟩

theorem bind {k : α → Action β} (ha : OrderBlind act) (hk : ∀ a, OrderBlind (k a)) : OrderBlind (act >>= k) :=
  ⟨ha.relates.bind fun a => (hk a).relates⟩

theorem get_bind {k : Session → Action α} (hsame : ∀ s t : Session, s.Reordered t → k s = k t)
    (hk : ∀ s, OrderBlind (k s)) : OrderBlind (get >>= k) := by
  refine ⟨Relates.get_bind fun s t hst => ?_⟩
  rw [← hsame s t hst]
  rintro _ _ ⟨rfl, rfl⟩
  exact (hk _).relates _ _ hst

theorem tryCatch {handler : Failure → Action α} (ha : OrderBlind act) (hh : ∀ e, OrderBlind (handler e)) :
    OrderBlind (MonadExcept.tryCatch act handler) := ⟨ha.relates.tryCatch_same fun e => (hh e).relates⟩

theorem during (h : OrderBlind act) (activity : Activity) (path : Path) :
    OrderBlind (Action.during activity path act) := ⟨h.relates.during_same activity path⟩

theorem onFailure {repair : Action Unit} (ha : OrderBlind act) (hr : OrderBlind repair) :
    OrderBlind (Action.onFailure act repair) := ha.tryCatch fun e => hr.bind fun _ => throw e

theorem foldlM {f : σ → α → Action σ} {l : List α} (h : ∀ acc, ∀ a ∈ l, OrderBlind (f acc a)) (acc : σ) :
    OrderBlind (l.foldlM f acc) :=
  ⟨Relates.foldlM (I := fun _ => Reordered) (fun a ha acc => (h acc a ha).relates) acc⟩

theorem mapM {f : α → Action β} {l : List α} (h : ∀ a ∈ l, OrderBlind (f a)) : OrderBlind (l.mapM f) :=
  ⟨Relates.mapM fun a ha => (h a ha).relates⟩

end OrderBlind

/-- An operation has one outcome in two sessions, and leaves sessions that differ in the order of entries at most. -/
def SameOutcome (s t : Session) (act : Action α) : Prop :=
  (act.perform s).1 = (act.perform t).1 ∧ (act.perform s).2.Reordered (act.perform t).2

theorem Meets.sameOutcome
    (h : Meets (fun _ => Reordered) (Same fun _ => Reordered) (act.perform s) (act.perform t)) :
    SameOutcome s t act := by
  unfold SameOutcome
  generalize act.perform s = o at h ⊢
  generalize act.perform t = o' at h ⊢
  rcases o with ⟨_ | _, s'⟩ <;> rcases o' with ⟨_ | _, t'⟩
  · exact ⟨congrArg Except.error h.1, h.2⟩
  · exact h.elim
  · exact h.elim
  · exact ⟨congrArg Except.ok h.1, h.2⟩

theorem OrderBlind.sameOutcome (h : OrderBlind act) (hst : s.Reordered t) : SameOutcome s t act :=
  (h.relates s t hst).sameOutcome

/-- An operation has failed, in one of the ways that are told. -/
def FailsWith (bad : Failure → Bool) (r : Except Failure α) : Prop := ∃ e, r = .error e ∧ bad e = true

/-- In sessions that differ in the order of entries, an operation has one outcome and leaves such sessions, unless in
one of them it fails in one of the ways that are told. -/
structure BlindUnless (bad : Failure → Bool) (act : Action α) : Prop where
  meets : ∀ s t, s.Reordered t →
    Meets (fun _ => Reordered) (Same fun _ => Reordered) (act.perform s) (act.perform t) ∨
      FailsWith bad (act.perform s).1 ∨ FailsWith bad (act.perform t).1

theorem OrderBlind.unless {bad : Failure → Bool} (h : OrderBlind act) : BlindUnless bad act :=
  ⟨fun s t hst => .inl (h.relates s t hst)⟩

theorem orderBlind_iff_unless : OrderBlind act ↔ BlindUnless (fun _ => false) act := by
  refine ⟨OrderBlind.unless, fun h => ⟨fun s t hst => ?_⟩⟩
  rcases h.meets s t hst with h | ⟨_, -, h⟩ | ⟨_, -, h⟩
  · exact h
  · cases h
  · cases h

theorem FailsWith.bind {bad : Failure → Bool} {k : α → Action β} (h : FailsWith bad (act.perform s).1) :
    FailsWith bad ((act >>= k).perform s).1 := by
  obtain ⟨e, he, hbad⟩ := h
  obtain ⟨t, ht⟩ := exists_perform_eq he
  exact ⟨e, by rw [perform_bind_error ht], hbad⟩

theorem BlindUnless.bind {bad : Failure → Bool} {k : α → Action β} (ha : BlindUnless bad act)
    (hk : ∀ a, BlindUnless bad (k a)) : BlindUnless bad (act >>= k) := by
  refine ⟨fun s t hst => ?_⟩
  rcases ha.meets s t hst with hmeets | hbad | hbad
  · rcases hs : act.perform s with ⟨e | a, s'⟩ <;> rcases ht : act.perform t with ⟨f | b, t'⟩ <;> rw [hs, ht] at hmeets
    · rw [perform_bind_error hs, perform_bind_error ht]
      exact .inl hmeets
    · exact hmeets.elim
    · exact hmeets.elim
    · obtain ⟨rfl, hst'⟩ := hmeets
      rw [perform_bind_ok hs, perform_bind_ok ht]
      exact (hk a).meets s' t' hst'
  · exact .inr (.inl hbad.bind)
  · exact .inr (.inr hbad.bind)

/-! ### Looking at a path -/

theorem orderBlind_isDirectory (p : Path) : OrderBlind (isDirectory p) :=
  .query fun s t hst => by rw [Session.isDirectory?, Session.isDirectory?, hst.look]

theorem orderBlind_isLink (p : Path) : OrderBlind (isLink p) :=
  .query fun s t hst => by rw [Session.isLink?, Session.isLink?, hst.look]

theorem orderBlind_pathExists (p : Path) : OrderBlind (pathExists p) :=
  .query fun s t hst => by rw [Session.exists?, Session.exists?, hst.look]

theorem orderBlind_isFile (p : Path) : OrderBlind (isFile p) := .query fun s t hst => by rw [hst.isFile?]

theorem orderBlind_readFile (p : Path) : OrderBlind (readFile p) := .query fun s t hst => by rw [hst.content?]

theorem orderBlind_resolve (p : Path) : OrderBlind (resolve p) := .query fun s t hst => by rw [hst.resolve?]

theorem orderBlind_locate (follow : Bool) (w : WrittenPath) : OrderBlind (locate follow w) :=
  .query fun s t hst => by rw [hst.find]

/-! ### Permuted names -/

/-- What follows on listing a directory has to do the same for permuted names. -/
theorem names_bind_meets {k k' : List String → Action β} {Q : β → Session → Session → Prop}
    {E : Failure → Failure → Session → Session → Prop} (hst : s.Reordered t)
    (hk : ∀ l l', s.names? w = .ok l → l.Perm l' → Meets Q E ((k l).perform s) ((k' l').perform t))
    (hE : ∀ e, E e e s t) : Meets Q E ((names w >>= k).perform s) ((names w >>= k').perform t) := by
  rcases hst.names? w with ⟨l, l', hl, hl', hperm⟩ | ⟨e, he, he'⟩
  · rw [perform_bind_ok (by rw [names, perform_query, hl]), perform_bind_ok (by rw [names, perform_query, hl'])]
    exact hk l l' hl hperm
  · rw [perform_bind_error (by rw [names, perform_query, he]), perform_bind_error (by rw [names, perform_query, he'])]
    exact hE e

/-- In all sessions that differ from one in the order of entries an operation has this outcome, and leaves such a
session. -/
def Answers (s : Session) (act : Action α) (r : Except Failure α) : Prop :=
  ∀ u, s.Reordered u → ∃ u', s.Reordered u' ∧ act.perform u = (r, u')

/-- An operation that is blind to the order and changes no more than the log has one answer. -/
theorem OrderBlind.answers (h : OrderBlind act) (hquiet : Preserves (fun u => s.Reordered u) act) :
    Answers s act (act.perform s).1 := by
  intro u hu
  refine ⟨(act.perform u).2, ?_, Prod.ext (h.sameOutcome hu).1.symm rfl⟩
  have hafter := hquiet.ensures u hu
  generalize act.perform u = o at hafter ⊢
  rcases o with ⟨_ | _, u'⟩ <;> exact hafter

section Tests

variable {test : α → Action Bool} {answer : α → Except Failure Bool} {l l' : List α}

/-- A test that fails on an element makes filtering fail; otherwise the elements that pass are kept. -/
private theorem filterAuxM_cases (h : ∀ a, Answers s (test a) (answer a)) (acc : List α) (hu : s.Reordered u) :
    ∃ u', s.Reordered u' ∧
      ((∃ a ∈ l, ∃ e, answer a = .error e ∧ (l.filterAuxM test acc).perform u = (.error e, u')) ∨
        (∀ a ∈ l, ∃ b, answer a = .ok b) ∧
          (l.filterAuxM test acc).perform u = (.ok ((l.filter fun a => answer a = .ok true).reverse ++ acc), u')) := by
  induction l generalizing acc u with
  | nil => exact ⟨u, hu, .inr ⟨fun _ ha => absurd ha List.not_mem_nil, rfl⟩⟩
  | cons a l ih =>
    obtain ⟨v, hv, hperform⟩ := h a u hu
    rcases ha : answer a with e | b
    · rw [ha] at hperform
      exact ⟨v, hv, .inl ⟨a, List.mem_cons_self, e, ha, by rw [List.filterAuxM, perform_bind_error hperform]⟩⟩
    · rw [ha] at hperform
      rw [List.filterAuxM, perform_bind_ok hperform]
      obtain ⟨u', hu', ⟨x, hx, e, he, hfails⟩ | ⟨hall, hkept⟩⟩ := ih (cond b (a :: acc) acc) hv
      · exact ⟨u', hu', .inl ⟨x, List.mem_cons_of_mem _ hx, e, he, hfails⟩⟩
      · refine ⟨u', hu', .inr ⟨List.forall_mem_cons.2 ⟨⟨b, ha⟩, hall⟩, ?_⟩⟩
        rw [hkept, List.filter_cons, ha]
        cases b <;> simp

private theorem filterM_cases (h : ∀ a, Answers s (test a) (answer a)) (hu : s.Reordered u) (l : List α) :
    ∃ u', s.Reordered u' ∧
      ((∃ a ∈ l, ∃ e, answer a = .error e ∧ (l.filterM test).perform u = (.error e, u')) ∨
        (∀ a ∈ l, ∃ b, answer a = .ok b) ∧
          (l.filterM test).perform u = (.ok (l.filter fun a => answer a = .ok true), u')) := by
  obtain ⟨u', hu', ⟨a, ha, e, he, hfails⟩ | ⟨hall, hkept⟩⟩ := filterAuxM_cases h [] hu
  · exact ⟨u', hu', .inl ⟨a, ha, e, he, by rw [List.filterM, perform_bind_error hfails]⟩⟩
  · refine ⟨u', hu', .inr ⟨hall, ?_⟩⟩
    rw [List.filterM, perform_bind_ok hkept, List.append_nil, perform_pure, List.reverse_reverse]

/-- What follows on filtering has to do the same for permuted elements; and if the test fails on some of them, then in
both sessions. -/
theorem filterM_bind_meets {k k' : List α → Action β} {Q : β → Session → Session → Prop}
    {E : Failure → Failure → Session → Session → Prop} (hst : s.Reordered t) (hperm : l.Perm l')
    (htest : ∀ a, Answers s (test a) (answer a))
    (hk : ∀ kept kept', kept.Perm kept' → Relates Reordered (k kept) (k' kept') Q E)
    (hE : ∀ e f u u', u.Reordered u' → (∃ a ∈ l, answer a = .error e) → (∃ a ∈ l, answer a = .error f) → E e f u u') :
    Meets Q E ((l.filterM test >>= k).perform s) ((l'.filterM test >>= k').perform t) := by
  obtain ⟨u, hu, hleft⟩ := filterM_cases htest hst.self l
  obtain ⟨u', hu', hright⟩ := filterM_cases htest hst l'
  have huu : u.Reordered u' := hu.symm.trans hu'
  rcases hleft with ⟨a, ha, e, he, hleft⟩ | ⟨hall, hleft⟩
  · rcases hright with ⟨a', ha', f, hf, hright⟩ | ⟨hall, -⟩
    · rw [perform_bind_error hleft, perform_bind_error hright]
      exact hE e f u u' huu ⟨a, ha, he⟩ ⟨a', hperm.mem_iff.2 ha', hf⟩
    · obtain ⟨b, hb⟩ := hall a (hperm.mem_iff.1 ha)
      cases he.symm.trans hb
  · rcases hright with ⟨a', ha', f, hf, -⟩ | ⟨-, hright⟩
    · obtain ⟨b, hb⟩ := hall a' (hperm.mem_iff.2 ha')
      cases hf.symm.trans hb
    · rw [perform_bind_ok hleft, perform_bind_ok hright]
      exact hk _ _ (hperm.filter _) u u' huu

end Tests

/-! ### Traversals -/

/-- A traversal that sorts the names of each directory is blind to their order. -/
theorem orderBlind_foldBelow {visit : σ → Path → Action σ} (h : ∀ acc p, OrderBlind (visit acc p)) (levels : Nat)
    (acc : σ) (dir : Path) : OrderBlind (foldBelow true visit levels acc dir) := by
  induction levels generalizing acc dir with
  | zero => exact .pure _
  | succ levels ih =>
    unfold foldBelow
    refine (orderBlind_isDirectory dir).bind fun isDir => (orderBlind_isLink dir).bind fun isLink => ?_
    split
    · refine ⟨fun s t hst => names_bind_meets hst (fun l l' _ hperm => ?_) fun e => ⟨rfl, hst⟩⟩
      simp only [if_true, sortNames_eq_of_perm hperm]
      exact (OrderBlind.foldlM (fun acc c _ => (h acc _).bind fun acc => ih acc _) acc).relates s t hst
    · exact .pure _

theorem orderBlind_descendants (top : Path) (includeTop : Bool) : OrderBlind (descendants top includeTop true) :=
  .get_bind (fun s t hst => by simp only [hst.files.height]) fun s => orderBlind_foldBelow (fun _ _ => .pure _) _ _ _

theorem orderBlind_below {keep : Path → Action Bool} (h : ∀ p, OrderBlind (keep p)) (dir : Path) :
    OrderBlind (below dir keep) :=
  .get_bind (fun s t hst => by simp only [hst.files.height]) fun s =>
    orderBlind_foldBelow (fun acc p => (h p).bind fun b => by split <;> exact .pure _) _ _ _

/-- The failure on a name that is too long. -/
def Refused (e : Failure) : Prop := ∃ w, e = refuse .nameTooLong w

/-- One failure in both sessions, or in each one on a name that is too long. -/
def Alike (e f : Failure) (s t : Session) : Prop := (e = f ∨ Refused e ∧ Refused f) ∧ s.Reordered t

theorem refused_of_look {follow : Bool} {e : Failure} (h : s.look follow p = .error e) : Refused e := by
  unfold Session.look at h
  split at h
  · cases h
  · split at h <;> cases h
    exact ⟨_, rfl⟩

/-- The entries of a directory that pass a test are the same in both sessions; or the test fails in both on a name
that is too long. -/
theorem entriesWhere_relates {test : Path → Action Bool} (hlooks : ∀ q, Looks (test q))
    (hblind : ∀ q, OrderBlind (test q))
    (hfails : ∀ s l c e, s.names? dir.written = .ok l → ((test (dir.child c)).perform s).1 = .error e → Refused e) :
    Relates Reordered (entriesWhere dir test) (entriesWhere dir test) (fun _ => Reordered) Alike := by
  intro s t hst
  refine names_bind_meets hst (fun l l' hl hperm => ?_) fun e => ⟨.inl rfl, hst⟩
  refine filterM_bind_meets hst hperm (fun c => (hblind (dir.child c)).answers (hlooks _).preserves)
    (fun kept kept' hkept => ?_) fun e f u u' huu => ?_
  · rw [sortNames_eq_of_perm hkept]
    exact Relates.pure fun _ _ h => h
  · rintro ⟨c, -, he⟩ ⟨c', -, hf⟩
    exact ⟨.inr ⟨hfails s l c e hl he, hfails s l c' f hl hf⟩, huu⟩

theorem error_of_map {ε α β : Type} {x : Except ε α} {f : α → β} {e : ε} (h : x.map f = .error e) :
    x = .error e := by
  cases x with
  | error e' => exact congrArg Except.error (Except.error.inj h)
  | ok a => cases h

theorem filesIn_relates (dir : Path) :
    Relates Reordered (filesIn dir) (filesIn dir) (fun _ => Reordered) Alike := by
  refine entriesWhere_relates looks_isFile orderBlind_isFile fun s l c e hl he => ?_
  have hparent : (dir.child c).parent = dir := by simp [Path.parent, Path.child]
  -- a directory that is listed is not locked
  have hlocked : ¬ s.locked.contains dir = true := by
    intro hlocked
    unfold Session.names? at hl
    rw [show dir.written.path = dir from rfl, if_pos hlocked] at hl
    cases hl
  have hlook : (s.look true (dir.child c)).map isFileNode = .error e := by
    have hfile : s.isFile? (dir.child c) = .error e := he
    unfold Session.isFile? at hfile
    rwa [hparent, if_neg hlocked] at hfile
  exact refused_of_look (error_of_map hlook)

theorem directoriesIn_relates (dir : Path) :
    Relates Reordered (directoriesIn dir) (directoriesIn dir) (fun _ => Reordered) Alike := by
  refine entriesWhere_relates (fun q => ?_) (fun q => ?_) fun s l c e hl he => ?_
  · refine (looks_isDirectory q).bind fun b => ?_
    cases b with
    | true => exact (Looks.query _).bind fun _ => .pure _
    | false => exact .pure _
  · refine (orderBlind_isDirectory q).bind fun b => ?_
    cases b with
    | true => exact (orderBlind_isLink q).bind fun _ => .pure _
    | false => exact .pure _
  · rcases hdir : s.isDirectory? (dir.child c) with e' | b
    · rw [perform_bind_error (by rw [isDirectory, perform_query, hdir])] at he
      cases he
      exact refused_of_look (error_of_map hdir)
    · rw [perform_bind_ok (by rw [isDirectory, perform_query, hdir])] at he
      cases b with
      | false => cases he
      | true =>
        rcases hlink : s.isLink? (dir.child c) with e' | b
        · rw [if_pos rfl, perform_bind_error (by rw [isLink, perform_query, hlink])] at he
          cases he
          exact refused_of_look (error_of_map hlink)
        · rw [if_pos rfl, perform_bind_ok (by rw [isLink, perform_query, hlink])] at he
          cases he

/-- Where a directory is skipped, which of its entries could not be inspected is not told. -/
theorem orderBlind_readableDirectoriesIn (dir : Path) : OrderBlind (readableDirectoriesIn dir) := by
  refine ⟨(directoriesIn_relates dir).tryCatch fun e f => ?_⟩
  rintro s t ⟨rfl | ⟨⟨w, rfl⟩, ⟨w', rfl⟩⟩, hst⟩
  · cases e with
    | system e => exact ((OrderBlind.note _ _ _).bind fun _ => .pure _).relates s t hst
    | _ => exact (OrderBlind.throw _).relates s t hst
  · exact ((OrderBlind.note _ _ _).bind fun _ => .pure _).relates s t hst

theorem orderBlind_directoryBound : OrderBlind directoryBound :=
  .get_bind (fun s t hst => by rw [hst.files.length]) fun s => .pure _

theorem foldByDepth_unless {bad : Failure → Bool} {visit : σ → Path → Action (Bool × σ)}
    (h : ∀ acc p, BlindUnless bad (visit acc p)) (steps : Nat) (acc : σ) (queue : List Path) :
    BlindUnless bad (foldByDepth visit steps acc queue) := by
  induction steps generalizing acc queue with
  | zero => exact (OrderBlind.pure _).unless
  | succ steps ih =>
    cases queue with
    | nil => exact (OrderBlind.pure _).unless
    | cons dir queue =>
      unfold foldByDepth
      refine (h acc dir).bind fun r => ?_
      split
      split
      · exact (OrderBlind.pure _).unless
      · exact (orderBlind_readableDirectoriesIn dir).unless.bind fun children => ih _ _

theorem orderBlind_directoriesByDepth (top : Path) : OrderBlind (directoriesByDepth top) :=
  orderBlind_iff_unless.2 (orderBlind_directoryBound.unless.bind fun _ =>
    foldByDepth_unless (fun _ _ => (OrderBlind.pure _).unless) _ _ _)

theorem findDirectory_unless {bad : Failure → Bool} {test : Path → Action Bool} (h : ∀ p, BlindUnless bad (test p))
    (top : Path) : BlindUnless bad (findDirectory top test) := by
  refine orderBlind_directoryBound.unless.bind fun _ => foldByDepth_unless (fun _ dir => (h dir).bind fun b => ?_) _ _ _
  split <;> exact (OrderBlind.pure _).unless

/-! ### Changing files -/

theorem orderBlind_writeFile (w : WrittenPath) (data : Bytes) : OrderBlind (writeFile w data) := by
  refine (orderBlind_locate true w).bind fun place => ?_
  split
  · exact .edit fun f g hfg => hfg.put _ _
  · exact .edit fun f g hfg => hfg.put _ _
  · exact .throw _

theorem orderBlind_removeFile (w : WrittenPath) : OrderBlind (removeFile w) := by
  refine (orderBlind_locate false w).bind fun place => ?_
  split
  · exact .throw _
  · exact .throw _
  · exact .edit fun f g hfg => hfg.erase _

theorem orderBlind_rename (source target : WrittenPath) : OrderBlind (rename source target) := by
  unfold rename
  split
  · exact ⟨Relates.throw_bind fun _ _ hst => ⟨rfl, hst⟩⟩
  refine .get_bind (fun s t hst => by simp only [hst.find]) fun s => ?_
  split
  · exact .throw _
  · exact .throw _
  · exact .throw _
  · split
    · exact .throw _
    · exact .throw _
    · split
      · exact .pure _
      · exact .edit fun f g hfg => (hfg.erase _).put _ _

theorem orderBlind_removeDraft (draft : WrittenPath) : OrderBlind (removeDraft draft) := by
  refine (orderBlind_removeFile draft).tryCatch fun e => ?_
  split
  · exact .pure _
  · exact .throw _

theorem orderBlind_overwriteAtomic {body : WrittenPath → Action Unit} (h : ∀ draft, OrderBlind (body draft)) (p : Path)
    (suffix : String) : OrderBlind (overwriteAtomic p suffix body) :=
  OrderBlind.onFailure ((orderBlind_writeFile _ _).bind fun _ => (h _).bind fun _ => orderBlind_rename _ _)
    (orderBlind_removeDraft _)

end Handout.Action
