import Handout.Proofs.Session

/-!
# Operations in two sessions

`Relates R act act' Q E` says that `act` and `act'`, started in two sessions related by `R`, both end with the same
result and sessions related by `Q`, or both fail, with failures and sessions related by `E`.  The rules are those of
`Ensures`, which is the case of one session beside itself (`ensures_iff_relates`).
-/

namespace Handout.Action

variable {α β : Type}

/-- What is said about two outcomes: two equal results, or two failures. -/
def Meets (Q : α → Session → Session → Prop) (E : Failure → Failure → Session → Session → Prop) :
    Except Failure α × Session → Except Failure α × Session → Prop
  | (.ok a, s), (.ok b, t) => a = b ∧ Q a s t
  | (.error e, s), (.error f, t) => E e f s t
  | _, _ => False

/-- Started in sessions with `R`, two operations both end with one result and `Q`, or both fail and `E`. -/
def Relates (R : Session → Session → Prop) (act act' : Action α) (Q : α → Session → Session → Prop)
    (E : Failure → Failure → Session → Session → Prop) : Prop :=
  ∀ s t, R s t → Meets Q E (act.perform s) (act'.perform t)

/-- One failure in both sessions. -/
def Same (F : Failure → Session → Session → Prop) (e f : Failure) (s t : Session) : Prop := e = f ∧ F e s t

/-- A session beside itself. -/
def Alone (P : Session → Prop) (s t : Session) : Prop := s = t ∧ P s

variable {R R' S : Session → Session → Prop} {Q Q' : α → Session → Session → Prop}
  {E E' F : Failure → Failure → Session → Session → Prop} {act act' : Action α}

theorem ensures_iff_relates {P : Session → Prop} {Q : α → Session → Prop} {E : Failure → Session → Prop} :
    Ensures P act Q E ↔ Relates (Alone P) act act (fun a => Alone (Q a)) (Same fun e => Alone (E e)) := by
  constructor
  · rintro h s t ⟨rfl, hs⟩
    have h := h s hs
    generalize act.perform s = o at h ⊢
    rcases o with ⟨r, t⟩
    cases r with
    | ok a => exact ⟨rfl, rfl, h⟩
    | error e => exact ⟨rfl, rfl, h⟩
  · intro h s hs
    have h := h s s ⟨rfl, hs⟩
    generalize act.perform s = o at h ⊢
    rcases o with ⟨r, t⟩
    cases r with
    | ok a => exact h.2.2
    | error e => exact h.2.2

theorem Meets.mono {o o' : Except Failure α × Session} (h : Meets Q E o o') (hQ : ∀ a s t, Q a s t → Q' a s t)
    (hE : ∀ e f s t, E e f s t → E' e f s t) : Meets Q' E' o o' := by
  rcases o with ⟨r, s⟩
  rcases o' with ⟨r', t⟩
  cases r with
  | ok a =>
    cases r' with
    | ok b => exact ⟨h.1, hQ a s t h.2⟩
    | error f => exact h
  | error e =>
    cases r' with
    | ok b => exact h
    | error f => exact hE e f s t h

theorem Relates.mono (h : Relates R act act' Q E) (hR : ∀ s t, R' s t → R s t) (hQ : ∀ a s t, Q a s t → Q' a s t)
    (hE : ∀ e f s t, E e f s t → E' e f s t) : Relates R' act act' Q' E' :=
  fun s t hst => (h s t (hR s t hst)).mono hQ hE

theorem Relates.pure {a : α} (h : ∀ s t, R s t → Q a s t) : Relates R (Pure.pure a) (Pure.pure a) Q E :=
  fun s t hst => ⟨rfl, h s t hst⟩

theorem Relates.throw {e f : Failure} (h : ∀ s t, R s t → E e f s t) :
    Relates R (MonadExcept.throw e : Action α) (MonadExcept.throw f) Q E := h

theorem Relates.query {f g : Session → Except Failure α} (h : ∀ s t, R s t → Meets Q E (f s, s) (g t, t)) :
    Relates R (Action.query f) (Action.query g) Q E := h

/-- A question with the same answer in both sessions. -/
theorem Relates.query_same {f g : Session → Except Failure α} (h : ∀ s t, R s t → f s = g t) :
    Relates R (Action.query f) (Action.query g) (fun _ => R) (Same fun _ => R) := by
  intro s t hst
  rw [perform_query, perform_query, h s t hst]
  cases g t with
  | ok a => exact ⟨rfl, hst⟩
  | error e => exact ⟨rfl, hst⟩

theorem Relates.query_const (answer : Except Failure α) :
    Relates R (Action.query fun _ => answer) (Action.query fun _ => answer)
      (fun a s t => R s t ∧ answer = .ok a) (Same fun _ => R) := by
  intro s t hst
  cases answer with
  | ok a => exact ⟨rfl, hst, rfl⟩
  | error e => exact ⟨rfl, hst⟩

/-- A fact that does not depend on the sessions may be assumed. -/
theorem Relates.of_and {p : Prop} (h : p → Relates R act act' Q E) :
    Relates (fun s t => R s t ∧ p) act act' Q E := fun s t hst => h hst.2 s t hst.1

theorem Relates.edit {f g : Files → Files} {Q : Unit → Session → Session → Prop}
    (h : ∀ s t, R s t → Q () { s with files := f s.files } { t with files := g t.files }) :
    Relates R (Action.edit f) (Action.edit g) Q E := fun s t hst => ⟨rfl, h s t hst⟩

theorem Relates.note {level : LogLevel} {topic : LogTopic} {text : String}
    (h : ∀ s t record, R s t → R { s with log := s.log ++ [record] } { t with log := t.log ++ [record] }) :
    Relates R (Action.note level topic text) (Action.note level topic text) (fun _ => R) E :=
  fun s t hst => ⟨rfl, h s t _ hst⟩

theorem Relates.bind {k k' : α → Action β} {M : α → Session → Session → Prop} {Q : β → Session → Session → Prop}
    (ha : Relates R act act' M E) (hk : ∀ a, Relates (M a) (k a) (k' a) Q E) :
    Relates R (act >>= k) (act' >>= k') Q E := by
  intro s t hst
  have h := ha s t hst
  rw [perform_bind, perform_bind]
  generalize act.perform s = o at h ⊢
  generalize act'.perform t = o' at h ⊢
  rcases o with ⟨r, s'⟩
  rcases o' with ⟨r', t'⟩
  cases r with
  | ok a =>
    cases r' with
    | ok b =>
      obtain ⟨rfl, h⟩ := h
      exact hk a s' t' h
    | error f => exact h.elim
  | error e =>
    cases r' with
    | ok b => exact h.elim
    | error f => exact h

theorem Relates.throw_bind {e f : Failure} {k k' : α → Action β} {Q : β → Session → Session → Prop}
    (h : ∀ s t, R s t → E e f s t) :
    Relates R (MonadExcept.throw e >>= k) (MonadExcept.throw f >>= k') Q E := h

theorem Relates.get_bind {k k' : Session → Action α}
    (h : ∀ s t, R s t → Relates (fun a b => a = s ∧ b = t) (k s) (k' t) Q E) :
    Relates R (get >>= k) (get >>= k') Q E := by
  intro s t hst
  rw [perform_bind, perform_get, perform_bind, perform_get]
  exact h s t hst s t ⟨rfl, rfl⟩

theorem Relates.tryCatch {handler handler' : Failure → Action α} (ha : Relates R act act' Q F)
    (hh : ∀ e f, Relates (F e f) (handler e) (handler' f) Q E) :
    Relates R (MonadExcept.tryCatch act handler) (MonadExcept.tryCatch act' handler') Q E := by
  intro s t hst
  have h := ha s t hst
  rw [perform_tryCatch, perform_tryCatch]
  generalize act.perform s = o at h ⊢
  generalize act'.perform t = o' at h ⊢
  rcases o with ⟨r, s'⟩
  rcases o' with ⟨r', t'⟩
  cases r with
  | ok a =>
    cases r' with
    | ok b => exact h
    | error f => exact h.elim
  | error e =>
    cases r' with
    | ok b => exact h.elim
    | error f => exact hh e f s' t' h

/-- Where one failure is caught in both sessions, it is dealt with. -/
theorem Relates.tryCatch_same {F : Failure → Session → Session → Prop} {handler handler' : Failure → Action α}
    (ha : Relates R act act' Q (Same F)) (hh : ∀ e, Relates (F e) (handler e) (handler' e) Q E) :
    Relates R (MonadExcept.tryCatch act handler) (MonadExcept.tryCatch act' handler') Q E := by
  refine ha.tryCatch fun e f => ?_
  rintro s t ⟨rfl, hst⟩
  exact hh e s t hst

theorem Relates.during_same (h : Relates R act act' Q (Same fun _ => S)) (activity : Activity) (path : Path) :
    Relates R (Action.during activity path act) (Action.during activity path act') Q (Same fun _ => S) := by
  refine h.tryCatch_same fun e => ?_
  cases e <;> exact Relates.throw fun _ _ hst => ⟨rfl, hst⟩

/-- What is related in one session beside itself is ensured. -/
theorem Relates.ensures (h : Relates R act act Q E) {s : Session} (hs : R s s) :
    Ensures (fun t => t = s) act (fun a t => Q a t t) fun _ _ => True := by
  rintro _ rfl
  have hmeets := h _ _ hs
  generalize act.perform _ = o at hmeets ⊢
  obtain ⟨r, t⟩ := o
  cases r with
  | ok a => exact hmeets.2
  | error e => trivial

/-- A loop over one list in both sessions. -/
theorem Relates.foldlM {σ : Type} {f f' : σ → α → Action σ} {l : List α} {I : σ → Session → Session → Prop}
    (step : ∀ a ∈ l, ∀ acc, Relates (I acc) (f acc a) (f' acc a) I E) (acc : σ) :
    Relates (I acc) (l.foldlM f acc) (l.foldlM f' acc) I E := by
  induction l generalizing acc with
  | nil => exact Relates.pure fun _ _ hst => hst
  | cons a l ih =>
    rw [List.foldlM_cons, List.foldlM_cons]
    exact (step a (List.mem_cons_self ..) acc).bind fun acc' => ih (fun b hb => step b (List.mem_cons_of_mem _ hb)) acc'

theorem Relates.forM {f f' : α → Action Unit} {l : List α} (step : ∀ a ∈ l, Relates R (f a) (f' a) (fun _ => R) E) :
    Relates R (l.forM f) (l.forM f') (fun _ => R) E := by
  induction l with
  | nil => exact Relates.pure fun _ _ hst => hst
  | cons a l ih =>
    show Relates R (f a >>= fun _ => l.forM f) (f' a >>= fun _ => l.forM f') _ _
    exact (step a (List.mem_cons_self ..)).bind fun _ => ih fun b hb => step b (List.mem_cons_of_mem _ hb)

/-- In a loop the relation may speak of the elements that are done. -/
theorem Relates.forM_done {f g : α → Action Unit} {l : List α} (I : List α → Session → Session → Prop)
    (step : ∀ done a rest, l = done ++ a :: rest → Relates (I done) (f a) (g a) (fun _ => I (done ++ [a])) E) :
    Relates (I []) (l.forM f) (l.forM g) (fun _ => I l) E := by
  suffices h : ∀ rest done, l = done ++ rest → Relates (I done) (rest.forM f) (rest.forM g) (fun _ => I l) E from
    h l [] rfl
  intro rest
  induction rest with
  | nil =>
    intro done hl
    rw [List.append_nil] at hl
    subst hl
    exact Relates.pure fun _ _ hst => hst
  | cons a rest ih =>
    intro done hl
    show Relates (I done) (f a >>= fun _ => rest.forM f) (g a >>= fun _ => rest.forM g) _ _
    refine (step done a rest hl).bind fun _ => ?_
    exact ih (done ++ [a]) (by rw [hl, List.append_assoc, List.singleton_append])

theorem Relates.mapM {f f' : α → Action β} {l : List α} (step : ∀ a ∈ l, Relates R (f a) (f' a) (fun _ => R) E) :
    Relates R (l.mapM f) (l.mapM f') (fun _ => R) E := by
  induction l with
  | nil => exact Relates.pure fun _ _ hst => hst
  | cons a l ih =>
    rw [List.mapM_cons, List.mapM_cons]
    refine (step a (List.mem_cons_self ..)).bind fun b => ?_
    exact (ih fun x hx => step x (List.mem_cons_of_mem _ hx)).bind fun bs => Relates.pure fun _ _ hst => hst

/-- An operation that only looks, and sees the same in both sessions. -/
theorem relates_of_agrees (h : ∀ s t, R s t → Agrees s t act) : Relates R act act (fun _ => R) (Same fun _ => R) := by
  intro s t hst
  obtain ⟨hs, ht, hsame⟩ := h s t hst
  generalize act.perform s = o at hs hsame ⊢
  generalize act.perform t = o' at ht hsame ⊢
  rcases o with ⟨r, s'⟩
  rcases o' with ⟨r', t'⟩
  cases hs
  cases ht
  cases hsame
  cases r with
  | ok a => exact ⟨rfl, hst⟩
  | error e => exact ⟨rfl, hst⟩

end Handout.Action
