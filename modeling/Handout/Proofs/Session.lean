import Handout.Session

/-!
# Reasoning about operations

An operation is understood through `Action.perform`: the `perform_*` lemmas say what each way of building an
operation does to a session.  `Ensures P act Q E` says that `act`, started in a session with `P`, ends with a result
and a session related by `Q`, or with a failure and a session related by `E`.  Failures are part of the statement
because operations go on after some of them.  The rules follow the ways of building operations; loops have the rules
`Ensures.foldlM` and `Ensures.forM`, in which the invariant may speak of the elements that are done.
-/

namespace Handout

/-- A computation that succeeds does so in every step. -/
theorem ok_of_bind {α β ε : Type} {x : Except ε α} {f : α → Except ε β} {b : β} (h : (x >>= f) = .ok b) :
    ∃ a, x = .ok a ∧ f a = .ok b := by
  cases x with
  | error e => cases h
  | ok a => exact ⟨a, rfl, h⟩

theorem mapM_eq_ok {α β ε : Type} {f : α → Except ε β} {g : α → β} {l : List α} (h : ∀ a ∈ l, f a = .ok (g a)) :
    l.mapM f = .ok (l.map g) := by
  induction l with
  | nil => rfl
  | cons a l ih =>
    rw [List.mapM_cons, h a (List.mem_cons_self ..), ih fun x hx => h x (List.mem_cons_of_mem _ hx)]
    rfl

/-- Either all elements have answers, and these are collected, or the first one that has none is a failure. -/
theorem mapM_cases {α β ε : Type} (f : α → Except ε β) (l : List α) :
    (∃ r, l.mapM f = .ok r ∧ (∀ a ∈ l, ∃ b, f a = .ok b) ∧ ∀ b, b ∈ r ↔ ∃ a ∈ l, f a = .ok b) ∨
      ∃ e, l.mapM f = .error e ∧ ∃ a ∈ l, f a = .error e := by
  induction l with
  | nil => exact .inl ⟨[], rfl, by simp, by simp⟩
  | cons a l ih =>
    rw [List.mapM_cons]
    cases ha : f a with
    | error e => exact .inr ⟨e, rfl, a, List.mem_cons_self .., ha⟩
    | ok b =>
      rcases ih with ⟨r, hr, hall, hmem⟩ | ⟨e, he, a', ha', hfail⟩
      · rw [hr]
        refine .inl ⟨b :: r, rfl, List.forall_mem_cons.2 ⟨⟨b, ha⟩, hall⟩, fun x => ?_⟩
        simp [ha, hmem, eq_comm]
      · rw [he]
        exact .inr ⟨e, rfl, a', List.mem_cons_of_mem _ ha', hfail⟩

theorem mem_of_mapM_ok {α β ε : Type} {f : α → Except ε β} {l : List α} {r : List β} (h : l.mapM f = .ok r) {b : β}
    (hb : b ∈ r) : ∃ a ∈ l, f a = .ok b := by
  rcases mapM_cases f l with ⟨r', hr, -, hmem⟩ | ⟨e, he, -⟩
  · cases h.symm.trans hr
    exact (hmem b).1 hb
  · cases h.symm.trans he

theorem ok_of_mapM_ok {α β ε : Type} {f : α → Except ε β} {l : List α} {r : List β} (h : l.mapM f = .ok r) {a : α}
    (ha : a ∈ l) : ∃ b, f a = .ok b := by
  rcases mapM_cases f l with ⟨r', -, hall, -⟩ | ⟨e, he, -⟩
  · exact hall a ha
  · cases h.symm.trans he

theorem exists_of_mapM_error {α β ε : Type} {f : α → Except ε β} {l : List α} {e : ε} (h : l.mapM f = .error e) :
    ∃ a ∈ l, f a = .error e := by
  rcases mapM_cases f l with ⟨r, hr, -⟩ | ⟨e', he, hfail⟩
  · cases h.symm.trans hr
  · cases h.symm.trans he
    exact hfail

namespace Action

variable {α β : Type}

/-- Whether an operation has a certain result can be tested, although failures are not compared. -/
instance [DecidableEq α] (r : Except Failure α) (a : α) : Decidable (r = .ok a) :=
  match r with
  | .ok b => decidable_of_iff (b = a) ⟨fun h => h ▸ rfl, Except.ok.inj⟩
  | .error _ => isFalse nofun

/-! ### What operations do -/

@[simp] theorem perform_pure (a : α) (s : Session) : (pure a : Action α).perform s = (.ok a, s) := rfl

@[simp] theorem perform_throw (e : Failure) (s : Session) : (throw e : Action α).perform s = (.error e, s) := rfl

theorem perform_bind (act : Action α) (f : α → Action β) (s : Session) :
    (act >>= f).perform s = match act.perform s with
      | (.ok a, t) => (f a).perform t
      | (.error e, t) => (.error e, t) := by
  unfold perform ExceptT.run
  simp only [bind, ExceptT.bind, ExceptT.mk, StateT.bind, ExceptT.bindCont]
  cases act s with
  | mk result t => cases result <;> rfl

theorem perform_tryCatch (act : Action α) (handler : Failure → Action α) (s : Session) :
    (tryCatch act handler : Action α).perform s = match act.perform s with
      | (.ok a, t) => (.ok a, t)
      | (.error e, t) => (handler e).perform t := by
  unfold perform ExceptT.run
  simp only [tryCatch, tryCatchThe, MonadExceptOf.tryCatch, ExceptT.tryCatch, ExceptT.mk, bind, StateT.bind]
  cases act s with
  | mk result t => cases result <;> rfl

@[simp] theorem perform_get (s : Session) : (get : Action Session).perform s = (.ok s, s) := rfl

@[simp] theorem perform_modify (f : Session → Session) (s : Session) :
    (modify f : Action Unit).perform s = (.ok (), f s) := rfl

@[simp] theorem perform_query (f : Session → Except Failure α) (s : Session) : (query f).perform s = (f s, s) := rfl

@[simp] theorem perform_edit (f : Files → Files) (s : Session) :
    (edit f).perform s = (.ok (), { s with files := f s.files }) := rfl

@[simp] theorem perform_note (level : LogLevel) (topic : LogTopic) (text : String) (s : Session) :
    (note level topic text).perform s = (.ok (), { s with log := s.log ++ [⟨level, topic, text⟩] }) := rfl

theorem perform_eq_of_fst {act : Action α} {r : Except Failure α} {s : Session} (h : (act.perform s).1 = r) :
    act.perform s = (r, (act.perform s).2) := Prod.ext h rfl

theorem exists_perform_eq {act : Action α} {r : Except Failure α} {s : Session} (h : (act.perform s).1 = r) :
    ∃ t, act.perform s = (r, t) := ⟨_, perform_eq_of_fst h⟩

theorem perform_bind_ok {act : Action α} {a : α} {s t : Session} (h : act.perform s = (.ok a, t))
    (f : α → Action β) : (act >>= f).perform s = (f a).perform t := by
  rw [perform_bind, h]

theorem perform_bind_error {act : Action α} {e : Failure} {s t : Session} (h : act.perform s = (.error e, t))
    (f : α → Action β) : (act >>= f).perform s = (.error e, t) := by
  rw [perform_bind, h]

/-- Operations that end well one after the other. -/
theorem ok_of_perform_bind {act : Action α} {f : α → Action β} {b : β} {s u : Session}
    (h : (act >>= f).perform s = (.ok b, u)) : ∃ a t, act.perform s = (.ok a, t) ∧ (f a).perform t = (.ok b, u) := by
  rcases hp : act.perform s with ⟨r, t⟩
  cases r with
  | ok a => exact ⟨a, t, rfl, (perform_bind_ok hp f).symm.trans h⟩
  | error e =>
    rw [perform_bind_error hp] at h
    cases h

/-- Operations one after the other of which one has failed. -/
theorem error_of_perform_bind {act : Action α} {f : α → Action β} {e : Failure} {s u : Session}
    (h : (act >>= f).perform s = (.error e, u)) :
    act.perform s = (.error e, u) ∨ ∃ a t, act.perform s = (.ok a, t) ∧ (f a).perform t = (.error e, u) := by
  rcases hp : act.perform s with ⟨r, t⟩
  cases r with
  | ok a => exact .inr ⟨a, t, rfl, (perform_bind_ok hp f).symm.trans h⟩
  | error e' =>
    rw [perform_bind_error hp] at h
    cases h
    exact .inl rfl

/-- An operation that is followed by a result of its own. -/
theorem perform_bind_pure (act : Action α) (b : β) (s : Session) :
    (act >>= fun _ => pure b).perform s = ((act.perform s).1.map fun _ => b, (act.perform s).2) := by
  rw [perform_bind]
  rcases act.perform s with ⟨r, t⟩
  cases r <;> rfl

/-- Operations on the elements of a list that only look at the session. -/
theorem perform_mapM {α β : Type} {f : α → Action β} {g : α → Except Failure β} {l : List α}
    (h : ∀ a ∈ l, (f a).perform s = (g a, s)) : (l.mapM f).perform s = (l.mapM g, s) := by
  induction l with
  | nil => rfl
  | cons a l ih =>
    have hfirst := h a (List.mem_cons_self ..)
    rw [List.mapM_cons, List.mapM_cons]
    cases ha : g a with
    | error e =>
      rw [ha] at hfirst
      rw [perform_bind_error hfirst]
      rfl
    | ok b =>
      rw [ha] at hfirst
      rw [perform_bind_ok hfirst, perform_bind, ih fun x hx => h x (List.mem_cons_of_mem _ hx)]
      cases l.mapM g with
      | error e => rfl
      | ok bs => rfl

/-- What a failure becomes in an activity. -/
def ascribed (activity : Activity) (path : Path) : Failure → Failure
  | .system e => .activity activity path e
  | e => e

theorem perform_during (activity : Activity) (path : Path) (act : Action α) (s : Session) :
    (during activity path act).perform s = match act.perform s with
      | (.ok a, t) => (.ok a, t)
      | (.error e, t) => (.error (ascribed activity path e), t) := by
  unfold during
  rw [perform_tryCatch]
  rcases act.perform s with ⟨r, t⟩
  cases r with
  | ok a => rfl
  | error e => cases e <;> rfl

theorem ok_of_perform_during {activity : Activity} {path : Path} {act : Action α} {a : α} {s t : Session}
    (h : (during activity path act).perform s = (.ok a, t)) : act.perform s = (.ok a, t) := by
  rw [perform_during] at h
  split at h
  · rename_i hp
    rw [hp]
    exact h
  · cases h

theorem error_of_perform_during {activity : Activity} {path : Path} {act : Action α} {e : Failure} {s t : Session}
    (h : (during activity path act).perform s = (.error e, t)) : ∃ e', act.perform s = (.error e', t) := by
  rw [perform_during] at h
  split at h
  · cases h
  · rename_i e' _ hp
    cases h
    exact ⟨e', hp⟩

theorem ok_of_perform_onFailure {act : Action α} {repair : Action Unit} {a : α} {s t : Session}
    (h : (onFailure act repair).perform s = (.ok a, t)) : act.perform s = (.ok a, t) := by
  unfold onFailure at h
  rw [perform_tryCatch] at h
  split at h
  · rename_i hp
    rw [hp]
    exact h
  · obtain ⟨_, _, _, hthrow⟩ := ok_of_perform_bind h
    cases hthrow

/-! ### What operations ensure -/

/-- What is said about an outcome, in the two cases of a result and of a failure. -/
def Ends (Q : α → Session → Prop) (E : Failure → Session → Prop) : Except Failure α × Session → Prop
  | (.ok a, t) => Q a t
  | (.error e, t) => E e t

/-- Started in a session with `P`, an operation ends with a result and `Q`, or with a failure and `E`. -/
def Ensures (P : Session → Prop) (act : Action α) (Q : α → Session → Prop) (E : Failure → Session → Prop) : Prop :=
  ∀ s, P s → Ends Q E (act.perform s)

variable {P P' R : Session → Prop} {Q Q' : α → Session → Prop} {E E' F : Failure → Session → Prop}

theorem Ends.mono {o : Except Failure α × Session} (h : Ends Q E o) (hQ : ∀ a s, Q a s → Q' a s)
    (hE : ∀ e s, E e s → E' e s) : Ends Q' E' o := by
  rcases o with ⟨r, t⟩
  cases r with
  | ok a => exact hQ a t h
  | error e => exact hE e t h

theorem Ensures.mono {act : Action α} (h : Ensures P act Q E) (hP : ∀ s, P' s → P s)
    (hQ : ∀ a s, Q a s → Q' a s) (hE : ∀ e s, E e s → E' e s) : Ensures P' act Q' E' :=
  fun s hs => (h s (hP s hs)).mono hQ hE

/-- What an operation ensures in two respects. -/
theorem Ensures.and {act : Action α} (h : Ensures P act Q E) (h' : Ensures P act Q' E') :
    Ensures P act (fun a s => Q a s ∧ Q' a s) fun e s => E e s ∧ E' e s := by
  intro s hs
  have hboth := h s hs
  have hboth' := h' s hs
  rcases hp : act.perform s with ⟨r, t⟩
  rw [hp] at hboth hboth'
  cases r <;> exact ⟨hboth, hboth'⟩

/-- What an operation ensures, failing as it is known to fail. -/
theorem Ensures.failing {act : Action α} (h : Ensures P act Q E) (hfails : Ensures P act (fun _ _ => True) E') :
    Ensures P act Q E' :=
  (h.and hfails).mono (fun _ hs => hs) (fun _ _ hs => hs.1) fun _ _ he => he.2

/-- What is known of a result of an operation is the run that led to it. -/
theorem Ensures.perform {act : Action α} (h : Ensures P act Q E) {s : Session} (hs : P s) :
    Ensures (fun t => t = s) act (fun a t => act.perform s = (.ok a, t)) E := by
  intro t ht
  have hends := h s hs
  rw [ht]
  generalize act.perform s = o at hends ⊢
  obtain ⟨r, t⟩ := o
  cases r with
  | ok a => exact rfl
  | error e => exact hends

/-- What an operation ensures holds of its outcome. -/
theorem Ensures.ends {act : Action α} (h : Ensures P act Q E) {s : Session} {o : Except Failure α × Session} (hs : P s)
    (ho : act.perform s = o) : Ends Q E o := ho ▸ h s hs

/-- An operation that cannot fail has a result. -/
theorem Ensures.succeeds {act : Action α} (h : Ensures P act Q fun _ _ => False) {s : Session} (hs : P s) :
    ∃ a t, act.perform s = (.ok a, t) ∧ Q a t := by
  rcases hperform : act.perform s with ⟨r, t⟩
  have hends := h.ends hs hperform
  cases r with
  | error e => exact hends.elim
  | ok a => exact ⟨a, t, rfl, hends⟩

/-- What an operation ensures may be shown for one session at a time. -/
theorem Ensures.of_each {act : Action α} (h : ∀ s, P s → Ensures (fun t => t = s) act Q E) : Ensures P act Q E :=
  fun s hs => h s hs s rfl

/-- A fact that does not depend on the session may be assumed. -/
theorem Ensures.of_and {p : Prop} {act : Action α} (h : p → Ensures P act Q E) :
    Ensures (fun s => P s ∧ p) act Q E := fun s hs => h hs.2 s hs.1

theorem Ensures.pure {a : α} (h : ∀ s, P s → Q a s) : Ensures P (Pure.pure a) Q E := h

theorem Ensures.throw {e : Failure} (h : ∀ s, P s → E e s) :
    Ensures P (MonadExcept.throw e : Action α) Q E := h

theorem Ensures.query {f : Session → Except Failure α} (h : ∀ s, P s → Ends Q E (f s, s)) :
    Ensures P (Action.query f) Q E := h

/-- A question that does not depend on the session. -/
theorem Ensures.query_const (answer : Except Failure α) :
    Ensures P (Action.query fun _ => answer) (fun a s => P s ∧ answer = .ok a) fun _ => P := by
  intro s hs
  cases answer with
  | error e => exact hs
  | ok a => exact ⟨hs, rfl⟩

theorem Ensures.modify {f : Session → Session} {Q : Unit → Session → Prop} (h : ∀ s, P s → Q () (f s)) :
    Ensures P (modify f : Action Unit) Q E := h

theorem Ensures.edit {f : Files → Files} {Q : Unit → Session → Prop}
    (h : ∀ s, P s → Q () { s with files := f s.files }) : Ensures P (Action.edit f) Q E := h

theorem Ensures.note {level : LogLevel} {topic : LogTopic} {text : String} {Q : Session → Prop}
    (h : ∀ s record, P s → Q { s with log := s.log ++ [record] }) :
    Ensures P (Action.note level topic text) (fun _ => Q) E := fun s hs => h s _ hs

theorem Ensures.bind {act : Action α} {f : α → Action β} {M : α → Session → Prop} {Q : β → Session → Prop}
    (ha : Ensures P act M E) (hf : ∀ a, Ensures (M a) (f a) Q E) : Ensures P (act >>= f) Q E := by
  intro s hs
  have h := ha s hs
  rw [perform_bind]
  rcases hp : act.perform s with ⟨r, t⟩
  rw [hp] at h
  cases r with
  | ok a => exact hf a t h
  | error e => exact h

theorem Ensures.throw_bind {e : Failure} {f : α → Action β} {Q : β → Session → Prop} (h : ∀ s, P s → E e s) :
    Ensures P (MonadExcept.throw e >>= f) Q E := h

/-- An operation that looks at the session goes on in the session that it sees. -/
theorem Ensures.get_bind {f : Session → Action α} (h : ∀ s, Ensures (fun t => t = s ∧ P t) (f s) Q E) :
    Ensures P (get >>= f) Q E := by
  intro s hs
  rw [perform_bind, perform_get]
  exact h s s ⟨rfl, hs⟩

theorem Ensures.get_bind_of_eq {f : Session → Action α} {s : Session} (h : Ensures (fun t => t = s) (f s) Q E) :
    Ensures (fun t => t = s) (get >>= f) Q E := by
  rintro t rfl
  rw [perform_bind, perform_get]
  exact h t rfl

theorem Ensures.tryCatch {act : Action α} {handler : Failure → Action α} (ha : Ensures P act Q F)
    (hh : ∀ e, Ensures (F e) (handler e) Q E) : Ensures P (MonadExcept.tryCatch act handler) Q E := by
  intro s hs
  have h := ha s hs
  rw [perform_tryCatch]
  rcases hp : act.perform s with ⟨r, t⟩
  rw [hp] at h
  cases r with
  | ok a => exact h
  | error e => exact hh e t h

/-- Ascribing failures to an activity does not change what is said about sessions. -/
theorem Ensures.during {act : Action α} (h : Ensures P act Q fun _ => R) (activity : Activity) (path : Path) :
    Ensures P (Action.during activity path act) Q fun _ => R := by
  refine Ensures.tryCatch h fun e => ?_
  cases e <;> exact Ensures.throw fun _ hs => hs

theorem Ensures.onFailure {act : Action α} {repair : Action Unit} (h : Ensures P act Q F)
    (hr : ∀ e, Ensures (F e) repair (fun _ => E e) E) : Ensures P (Action.onFailure act repair) Q E :=
  Ensures.tryCatch h fun e => (hr e).bind fun _ => Ensures.throw fun _ hs => hs

/-- In a loop the invariant may speak of the elements that are done. -/
theorem Ensures.foldlM {σ : Type} {f : σ → α → Action σ} {l : List α} (I : List α → σ → Session → Prop)
    (step : ∀ done a rest acc, l = done ++ a :: rest → Ensures (I done acc) (f acc a) (I (done ++ [a])) E)
    (acc : σ) : Ensures (I [] acc) (l.foldlM f acc) (I l) E := by
  suffices h : ∀ rest done acc, l = done ++ rest → Ensures (I done acc) (rest.foldlM f acc) (I l) E from
    h l [] acc rfl
  intro rest
  induction rest with
  | nil =>
    intro done acc hl
    rw [List.append_nil] at hl
    subst hl
    exact Ensures.pure fun _ hs => hs
  | cons a rest ih =>
    intro done acc hl
    rw [List.foldlM_cons]
    refine (step done a rest acc hl).bind fun acc' => ?_
    exact ih (done ++ [a]) acc' (by rw [hl, List.append_assoc, List.singleton_append])

theorem Ensures.forM {f : α → Action Unit} {l : List α} (I : List α → Session → Prop)
    (step : ∀ done a rest, l = done ++ a :: rest → Ensures (I done) (f a) (fun _ => I (done ++ [a])) E) :
    Ensures (I []) (l.forM f) (fun _ => I l) E := by
  suffices h : ∀ rest done, l = done ++ rest → Ensures (I done) (rest.forM f) (fun _ => I l) E from h l [] rfl
  intro rest
  induction rest with
  | nil =>
    intro done hl
    rw [List.append_nil] at hl
    subst hl
    exact Ensures.pure fun _ hs => hs
  | cons a rest ih =>
    intro done hl
    show Ensures (I done) (f a >>= fun _ => rest.forM f) _ _
    refine (step done a rest hl).bind fun _ => ?_
    exact ih (done ++ [a]) (by rw [hl, List.append_assoc, List.singleton_append])

private theorem Ensures.filterAuxM {test : α → Action Bool} {keep : α → Prop} {l : List α}
    (h : ∀ a ∈ l, Ensures P (test a) (fun b s => P s ∧ (b = true → keep a)) E) (acc : List α) :
    Ensures P (l.filterAuxM test acc) (fun kept s => P s ∧ ∀ a ∈ kept, a ∈ acc ∨ a ∈ l ∧ keep a) E := by
  induction l generalizing acc with
  | nil => exact Ensures.pure fun s hs => ⟨hs, fun a ha => .inl ha⟩
  | cons a l ih =>
    refine (h a (List.mem_cons_self ..)).bind fun b => ?_
    refine Ensures.of_and fun hb => ?_
    have ih' := ih (fun x hx => h x (List.mem_cons_of_mem _ hx)) (cond b (a :: acc) acc)
    refine ih'.mono (fun _ hs => hs) (fun kept s hs => ⟨hs.1, fun x hx => ?_⟩) fun _ _ hs => hs
    rcases hs.2 x hx with hx | ⟨hx, hk⟩
    · cases b with
      | false => exact .inl hx
      | true =>
        rcases List.mem_cons.1 hx with rfl | hx
        · exact .inr ⟨List.mem_cons_self .., hb rfl⟩
        · exact .inl hx
    · exact .inr ⟨List.mem_cons_of_mem _ hx, hk⟩

/-- What passes a test is an element for which the test says so. -/
theorem Ensures.filterM {test : α → Action Bool} {keep : α → Prop} {l : List α}
    (h : ∀ a ∈ l, Ensures P (test a) (fun b s => P s ∧ (b = true → keep a)) E) :
    Ensures P (l.filterM test) (fun kept s => P s ∧ ∀ a ∈ kept, a ∈ l ∧ keep a) E := by
  refine (Ensures.filterAuxM h []).bind fun kept => Ensures.pure fun s hs => ⟨hs.1, fun a ha => ?_⟩
  rcases hs.2 a (List.mem_reverse.1 ha) with ha | ha
  · cases ha
  · exact ha

/-- A test whose answers are known filters as they tell. -/
theorem Ensures.filterM_eq {test : α → Action Bool} (answer : α → Bool) {l : List α}
    (h : ∀ a ∈ l, Ensures P (test a) (fun b s => P s ∧ b = answer a) E) :
    Ensures P (l.filterM test) (fun kept s => P s ∧ kept = l.filter answer) E := by
  suffices haux : ∀ acc, Ensures P (l.filterAuxM test acc)
      (fun kept s => P s ∧ kept = (l.filter answer).reverse ++ acc) E by
    refine (haux []).bind fun kept => Ensures.pure fun s hs => ⟨hs.1, ?_⟩
    rw [hs.2, List.append_nil, List.reverse_reverse]
  induction l with
  | nil => exact fun acc => Ensures.pure fun s hs => ⟨hs, rfl⟩
  | cons a l ih =>
    intro acc
    refine (h a (List.mem_cons_self ..)).bind fun b => Ensures.of_and fun hb => ?_
    have ih' := ih (fun x hx => h x (List.mem_cons_of_mem _ hx)) (cond b (a :: acc) acc)
    refine ih'.mono (fun _ hs => hs) (fun kept s hs => ⟨hs.1, ?_⟩) fun _ _ hs => hs
    rw [hs.2, List.filter_cons, ← hb]
    cases b <;> simp

/-! ### Operations that only look -/

/-- An operation that leaves the session as it is, whatever comes of it. -/
def Looks (act : Action α) : Prop := ∀ s, (act.perform s).2 = s

theorem Looks.ensures {act : Action α} (h : Looks act) (hE : ∀ e s, P s → E e s) :
    Ensures P act (fun _ => P) E := by
  intro s hs
  have h := h s
  rcases hp : act.perform s with ⟨r, t⟩
  rw [hp] at h
  subst h
  cases r with
  | ok a => exact hs
  | error e => exact hE e t hs

/-- What is known of the result of an operation that only looks. -/
theorem Looks.ensures_result {act : Action α} {keep : α → Prop} (h : Looks act)
    (hkeep : ∀ s a, P s → (act.perform s).1 = .ok a → keep a) : Ensures P act (fun a s => P s ∧ keep a) fun _ => P := by
  intro s hs
  have hlooks := h s
  have hresult := hkeep s
  rcases hp : act.perform s with ⟨r, t⟩
  rw [hp] at hlooks hresult
  subst hlooks
  cases r with
  | ok a => exact ⟨hs, hresult a hs rfl⟩
  | error e => exact hs

theorem Looks.pure (a : α) : Looks (Pure.pure a : Action α) := fun _ => rfl

theorem Looks.throw (e : Failure) : Looks (MonadExcept.throw e : Action α) := fun _ => rfl

theorem Looks.query (f : Session → Except Failure α) : Looks (Action.query f) := fun _ => rfl

theorem Looks.get : Looks (MonadState.get : Action Session) := fun _ => rfl

theorem Looks.bind {act : Action α} {f : α → Action β} (ha : Looks act) (hf : ∀ a, Looks (f a)) :
    Looks (act >>= f) := by
  intro s
  have h := ha s
  rw [perform_bind]
  rcases hp : act.perform s with ⟨r, t⟩
  rw [hp] at h
  subst h
  cases r with
  | ok a => exact hf a t
  | error e => rfl

theorem Looks.tryCatch {act : Action α} {handler : Failure → Action α} (ha : Looks act)
    (hh : ∀ e, Looks (handler e)) : Looks (MonadExcept.tryCatch act handler) := by
  intro s
  have h := ha s
  rw [perform_tryCatch]
  rcases hp : act.perform s with ⟨r, t⟩
  rw [hp] at h
  subst h
  cases r with
  | ok a => rfl
  | error e => exact hh e t

theorem Looks.during {act : Action α} (h : Looks act) (activity : Activity) (path : Path) :
    Looks (Action.during activity path act) := by
  refine h.tryCatch fun e => ?_
  cases e <;> exact Looks.throw _

theorem Looks.mapM {f : α → Action β} (h : ∀ a, Looks (f a)) (l : List α) : Looks (l.mapM f) := by
  induction l with
  | nil => exact Looks.pure _
  | cons a l ih =>
    rw [List.mapM_cons]
    exact (h a).bind fun b => ih.bind fun bs => Looks.pure _

private theorem filter_of_filterAuxM {test : α → Action Bool} (hlooks : ∀ a, Looks (test a)) {s : Session} {l acc kept : List α}
    (h : ((l.filterAuxM test acc).perform s).1 = .ok kept) :
    kept = (l.filter fun a => ((test a).perform s).1 = .ok true).reverse ++ acc := by
  induction l generalizing acc with
  | nil =>
    cases h
    rfl
  | cons a l ih =>
    have hs := hlooks a s
    rcases hp : (test a).perform s with ⟨r, t⟩
    rw [hp] at hs
    subst hs
    cases r with
    | error e =>
      rw [List.filterAuxM, perform_bind_error hp] at h
      cases h
    | ok keep =>
      rw [List.filterAuxM, perform_bind_ok hp] at h
      rw [ih h, List.filter_cons, hp]
      cases keep with
      | true => simp
      | false => simp

/-- What a list is filtered to by a test that only looks. -/
theorem filter_of_filterM {test : α → Action Bool} (hlooks : ∀ a, Looks (test a)) {s : Session} {l kept : List α}
    (h : ((l.filterM test).perform s).1 = .ok kept) : kept = l.filter fun a => ((test a).perform s).1 = .ok true := by
  unfold List.filterM at h
  rw [perform_bind] at h
  rcases haux : (l.filterAuxM test []).perform s with ⟨r, t⟩
  rw [haux] at h
  cases r with
  | error e => cases h
  | ok kept' =>
    cases h
    rw [filter_of_filterAuxM hlooks (congrArg Prod.fst haux), List.append_nil, List.reverse_reverse]

/-! ### Operations that preserve a property -/

/-- Whatever comes of an operation, it preserves a property of sessions. -/
structure Preserves (P : Session → Prop) (act : Action α) : Prop where
  ensures : Ensures P act (fun _ => P) fun _ => P

theorem Looks.preserves {act : Action α} (h : Looks act) : Preserves P act := ⟨h.ensures fun _ _ hs => hs⟩

theorem looks_of_preserves {act : Action α} (h : ∀ s, Preserves (fun t => t = s) act) : Looks act := by
  intro s
  have hs := (h s).ensures s rfl
  rcases hp : act.perform s with ⟨r, t⟩
  rw [hp] at hs
  cases r <;> exact hs

theorem Preserves.pure (a : α) : Preserves P (Pure.pure a : Action α) := (Looks.pure a).preserves

theorem Preserves.throw (e : Failure) : Preserves P (MonadExcept.throw e : Action α) := (Looks.throw e).preserves

theorem Preserves.query (f : Session → Except Failure α) : Preserves P (Action.query f) := (Looks.query f).preserves

theorem Preserves.note (h : ∀ s record, P s → P { s with log := s.log ++ [record] }) (level : LogLevel) (topic : LogTopic)
    (text : String) : Preserves P (Action.note level topic text) := ⟨Ensures.note h⟩

theorem Preserves.bind {act : Action α} {f : α → Action β} (ha : Preserves P act) (hf : ∀ a, Preserves P (f a)) :
    Preserves P (act >>= f) := ⟨Ensures.bind ha.ensures fun a => (hf a).ensures⟩

/-- What follows on an operation may rely on what is known of its result. -/
theorem Preserves.bind_of {act : Action α} {f : α → Action β} {keep : α → Prop}
    (ha : Ensures P act (fun a s => P s ∧ keep a) fun _ => P) (hf : ∀ a, keep a → Preserves P (f a)) :
    Preserves P (act >>= f) := ⟨ha.bind fun a => Ensures.of_and fun h => (hf a h).ensures⟩

theorem Preserves.get_bind {f : Session → Action α} (h : ∀ s, Preserves P (f s)) : Preserves P (get >>= f) :=
  Looks.get.preserves.bind h

theorem Preserves.tryCatch {act : Action α} {handler : Failure → Action α} (ha : Preserves P act)
    (hh : ∀ e, Preserves P (handler e)) : Preserves P (MonadExcept.tryCatch act handler) :=
  ⟨Ensures.tryCatch ha.ensures fun e => (hh e).ensures⟩

theorem Preserves.during {act : Action α} (h : Preserves P act) (activity : Activity) (path : Path) :
    Preserves P (Action.during activity path act) := ⟨Ensures.during h.ensures activity path⟩

theorem Preserves.foldlM {σ : Type} {f : σ → α → Action σ} {l : List α} (h : ∀ acc, ∀ a ∈ l, Preserves P (f acc a))
    (acc : σ) : Preserves P (l.foldlM f acc) := by
  refine ⟨Ensures.foldlM (fun _ _ => P) (fun done a rest acc hl => (h acc a ?_).ensures) acc⟩
  rw [hl]
  simp

theorem Preserves.forM {f : α → Action Unit} {l : List α} (h : ∀ a ∈ l, Preserves P (f a)) : Preserves P (l.forM f) := by
  refine ⟨Ensures.forM (fun _ => P) fun done a rest hl => (h a ?_).ensures⟩
  rw [hl]
  simp

theorem Preserves.filterM {test : α → Action Bool} {l : List α} (h : ∀ a ∈ l, Preserves P (test a)) :
    Preserves P (l.filterM test) := by
  have hkeep : ∀ a ∈ l, Ensures P (test a) (fun b s => P s ∧ (b = true → True)) fun _ => P := fun a ha =>
    (h a ha).ensures.mono (fun _ hs => hs) (fun _ _ hs => ⟨hs, fun _ => trivial⟩) fun _ _ hs => hs
  exact ⟨(Ensures.filterM hkeep).mono (fun _ hs => hs) (fun _ _ hs => hs.1) fun _ _ hs => hs⟩

/-! ### Operations in two sessions -/

/-- In two sessions an operation only looks, and it sees the same. -/
structure Agrees (s t : Session) (act : Action α) : Prop where
  left : (act.perform s).2 = s
  right : (act.perform t).2 = t
  same : (act.perform s).1 = (act.perform t).1

variable {s t : Session}

theorem Agrees.pure (a : α) : Agrees s t (Pure.pure a : Action α) := ⟨rfl, rfl, rfl⟩

theorem Agrees.throw (e : Failure) : Agrees s t (MonadExcept.throw e : Action α) := ⟨rfl, rfl, rfl⟩

theorem Agrees.query {f : Session → Except Failure α} (h : f s = f t) : Agrees s t (Action.query f) := ⟨rfl, rfl, h⟩

theorem Agrees.bind {act : Action α} {f : α → Action β} (ha : Agrees s t act)
    (hf : ∀ a, (act.perform s).1 = .ok a → Agrees s t (f a)) : Agrees s t (act >>= f) := by
  obtain ⟨hs, ht, hsame⟩ := ha
  rcases hp : act.perform s with ⟨r, s'⟩
  rcases hq : act.perform t with ⟨r', t'⟩
  rw [hp] at hs hsame hf
  rw [hq] at ht hsame
  subst hs ht hsame
  cases r with
  | ok a =>
    obtain ⟨hl, hr, hsame⟩ := hf a rfl
    constructor
    · rw [perform_bind_ok hp, hl]
    · rw [perform_bind_ok hq, hr]
    · rw [perform_bind_ok hp, perform_bind_ok hq, hsame]
  | error e =>
    constructor
    · rw [perform_bind_error hp]
    · rw [perform_bind_error hq]
    · rw [perform_bind_error hp, perform_bind_error hq]

theorem Agrees.get_bind {k : Session → Action α} (hk : k s = k t) (h : Agrees s t (k s)) :
    Agrees s t (get >>= k) := by
  refine ⟨h.left, ?_, ?_⟩
  · show ((k t).perform t).2 = t
    rw [← hk]
    exact h.right
  · show ((k s).perform s).1 = ((k t).perform t).1
    rw [← hk]
    exact h.same

theorem Agrees.tryCatch {act : Action α} {handler : Failure → Action α} (ha : Agrees s t act)
    (hh : ∀ e, Agrees s t (handler e)) : Agrees s t (MonadExcept.tryCatch act handler) := by
  obtain ⟨hs, ht, hsame⟩ := ha
  rcases hp : act.perform s with ⟨r, s'⟩
  rcases hq : act.perform t with ⟨r', t'⟩
  rw [hp] at hs hsame
  rw [hq] at ht hsame
  subst hs ht hsame
  cases r with
  | ok a => constructor <;> simp only [perform_tryCatch, hp, hq]
  | error e =>
    obtain ⟨hl, hr, hsame⟩ := hh e
    constructor <;> simp only [perform_tryCatch, hp, hq, hl, hr, hsame]

theorem Agrees.during {act : Action α} (h : Agrees s t act) (activity : Activity) (path : Path) :
    Agrees s t (Action.during activity path act) := by
  obtain ⟨hs, ht, hsame⟩ := h
  rcases hp : act.perform s with ⟨r, s'⟩
  rcases hq : act.perform t with ⟨r', t'⟩
  rw [hp] at hs hsame
  rw [hq] at ht hsame
  subst hs ht hsame
  unfold Action.during
  constructor
  all_goals rw [perform_tryCatch]
  · rw [hp]
    cases r with
    | ok a => rfl
    | error e => cases e <;> rfl
  · rw [hq]
    cases r with
    | ok a => rfl
    | error e => cases e <;> rfl
  · rw [perform_tryCatch, hp, hq]
    cases r with
    | ok a => rfl
    | error e => cases e <;> rfl

theorem Agrees.mapM {f : α → Action β} {l : List α} (h : ∀ a ∈ l, Agrees s t (f a)) : Agrees s t (l.mapM f) := by
  induction l with
  | nil => exact Agrees.pure _
  | cons a l ih =>
    rw [List.mapM_cons]
    refine (h a (List.mem_cons_self ..)).bind fun b _ => ?_
    exact (ih fun x hx => h x (List.mem_cons_of_mem _ hx)).bind fun bs _ => Agrees.pure _

theorem Agrees.filterM {test : α → Action Bool} {l : List α} (h : ∀ a ∈ l, Agrees s t (test a)) :
    Agrees s t (l.filterM test) := by
  suffices haux : ∀ acc, Agrees s t (l.filterAuxM test acc) from (haux []).bind fun _ _ => Agrees.pure _
  induction l with
  | nil => exact fun acc => Agrees.pure acc
  | cons a l ih =>
    intro acc
    exact (h a (List.mem_cons_self ..)).bind fun b _ => ih (fun x hx => h x (List.mem_cons_of_mem _ hx)) _

end Action

end Handout
