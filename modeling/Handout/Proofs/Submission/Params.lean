import Handout.Proofs.Path
import Handout.Proofs.Session
import Handout.Submission.Params

/-!
# Runs of insertions

Parameters come from a run of insertions, some of which are refused.  An insertion that is refused changes nothing
(`Insertion.perform_eq`), so the parameters are those that the accepted ones set, one after the other (`Accepted.run_eq`).
Words need no quotes and have no blanks, so the lines of the parameter file tell all parameters apart
(`eq_of_lines`), and so does the file (`eq_of_content`).
-/

namespace Handout.Params

/-! ### Words -/

/-- A word of letters and underscores. -/
def IsKey (w : String) : Prop := w ≠ "" ∧ ∀ c ∈ w.toList, c.isAlpha = true ∨ c = '_'

/-- A word of letters, underscores and hyphens. -/
def IsWord (w : String) : Prop := w ≠ "" ∧ ∀ c ∈ w.toList, c.isAlpha = true ∨ c = '_' ∨ c = '-'

theorem IsKey.isWord {w : String} (h : IsKey w) : IsWord w := ⟨h.1, fun c hc => (h.2 c hc).imp_right .inl⟩

/-- A value whose words may stand in the parameter file. -/
def HasWords : ParamValue → Prop
  | .word w => IsWord w
  | .array ws => ∀ w ∈ ws, IsWord w

private theorem isKeyChar_iff (c : Char) : isKeyChar c.toNat = true ↔ c.isAlpha = true ∨ c = '_' := by
  have hunderscore : c.toNat = 95 ↔ c = '_' := ⟨fun h => Char.toNat_inj.1 h, fun h => h ▸ rfl⟩
  have hupper : c.isUpper = true ↔ 65 ≤ c.toNat ∧ c.toNat ≤ 90 := by
    rw [show c.isUpper = decide (65 ≤ c.val ∧ c.val ≤ 90) from rfl]
    simp [UInt32.le_iff_toNat_le]
  have hlower : c.isLower = true ↔ 97 ≤ c.toNat ∧ c.toNat ≤ 122 := by
    rw [show c.isLower = (decide (97 ≤ c.val) && decide (c.val ≤ 122)) from rfl]
    simp [UInt32.le_iff_toNat_le]
  rw [show c.isAlpha = (c.isUpper || c.isLower) from rfl]
  simp [isKeyChar, hunderscore, hupper, hlower, or_assoc]

private theorem isValueChar_iff (c : Char) : isValueChar c.toNat = true ↔ c.isAlpha = true ∨ c = '_' ∨ c = '-' := by
  have hhyphen : c.toNat = 45 ↔ c = '-' := ⟨fun h => Char.toNat_inj.1 h, fun h => h ▸ rfl⟩
  simp [isValueChar, isKeyChar_iff, hhyphen, or_assoc]

private theorem lt_of_isValueChar {c : Nat} (h : isValueChar c = true) : c < 128 := by
  simp only [isValueChar, isKeyChar, Bool.or_eq_true, Bool.and_eq_true, decide_eq_true_eq, beq_iff_eq] at h
  omega

private theorem isValueChar_of_isKeyChar {c : Nat} (h : isKeyChar c = true) : isValueChar c = true := by
  rw [isValueChar, h, Bool.true_or]

/-- A text of ASCII characters is the one of its string. -/
private theorem ofString_toString_text {t : Text} (h : ∀ c ∈ t, c < 128) : Text.ofString t.toString = t := by
  unfold Text.ofString Text.toString
  rw [String.toList_ofList, List.map_map]
  conv_rhs => rw [← List.map_id t]
  refine List.map_congr_left fun c hc => ?_
  have hlt := h c hc
  have hvalid : c.isValidChar := .inl (by omega)
  rw [Function.comp_apply, if_neg (by omega), Char.ofNat, dif_pos hvalid]
  rfl

theorem ofString_injective {v w : String} (h : Value.ofString v = Value.ofString w) : v = w :=
  String.toList_inj.1 (List.map_injective_iff.2 (fun _ _ => Char.toNat_inj.1) (Value.text.inj h))

private theorem checkWord_eq_ok {permitted : Nat → Bool} (hvalue : ∀ c, permitted c = true → isValueChar c = true)
    {v : Value} {w : String} :
    checkWord permitted v = .ok w ↔ v = .ofString w ∧ w ≠ "" ∧ ∀ c ∈ w.toList, permitted c.toNat = true := by
  have hstring : ∀ u : String, Text.ofString u ≠ [] ↔ u ≠ "" := fun u => by
    rw [Text.ofString, Ne, List.map_eq_nil_iff, String.toList_eq_nil_iff]
  constructor
  · intro h
    unfold checkWord at h
    split at h
    · rename_i t
      split at h
      · rename_i ht
        obtain rfl : t.toString = w := Except.ok.inj h
        have hpermitted : ∀ c ∈ t, permitted c = true := List.all_eq_true.1 ht.2
        have hback := ofString_toString_text fun c hc => lt_of_isValueChar (hvalue c (hpermitted c hc))
        refine ⟨congrArg Value.text hback.symm, (hstring _).1 (hback.symm ▸ ht.1), fun c hc => hpermitted _ ?_⟩
        rw [← hback]
        exact List.mem_map_of_mem hc
      · cases h
    · cases h
  · rintro ⟨rfl, hne, hpermitted⟩
    have hword : Text.ofString w ≠ [] ∧ (Text.ofString w).all permitted = true := by
      refine ⟨(hstring w).2 hne, List.all_eq_true.2 fun c hc => ?_⟩
      obtain ⟨x, hx, rfl⟩ := List.mem_map.1 hc
      exact hpermitted x hx
    have hback := ofString_toString_text (t := Text.ofString w) fun c hc =>
      lt_of_isValueChar (hvalue c (List.all_eq_true.1 hword.2 c hc))
    unfold checkWord Value.ofString
    dsimp only
    rw [if_pos hword, ofString_injective (congrArg Value.text hback)]

theorem checkKey_eq_ok {v : Value} {w : String} : checkWord isKeyChar v = .ok w ↔ v = .ofString w ∧ IsKey w := by
  rw [checkWord_eq_ok fun c => isValueChar_of_isKeyChar, IsKey]
  simp only [isKeyChar_iff]

theorem checkValue_eq_ok {v : Value} {w : String} : checkWord isValueChar v = .ok w ↔ v = .ofString w ∧ IsWord w := by
  rw [checkWord_eq_ok fun c => id, IsWord]
  simp only [isValueChar_iff]

/-- The words of an array. -/
theorem checkValues_eq_ok {vs : List Value} {ws : List String} :
    vs.mapM (checkWord isValueChar) = .ok ws ↔ vs = ws.map Value.ofString ∧ ∀ w ∈ ws, IsWord w := by
  constructor
  · intro h
    induction vs generalizing ws with
    | nil =>
      obtain rfl : [] = ws := Except.ok.inj h
      exact ⟨rfl, nofun⟩
    | cons v vs ih =>
      rw [List.mapM_cons] at h
      obtain ⟨w, hw, h⟩ := ok_of_bind h
      obtain ⟨rest, hrest, h⟩ := ok_of_bind h
      obtain rfl : w :: rest = ws := Except.ok.inj h
      obtain ⟨rfl, hword⟩ := checkValue_eq_ok.1 hw
      obtain ⟨rfl, hwords⟩ := ih hrest
      exact ⟨rfl, List.forall_mem_cons.2 ⟨hword, hwords⟩⟩
  · rintro ⟨rfl, hwords⟩
    rw [List.mapM_map]
    have hall := mapM_eq_ok (f := checkWord isValueChar ∘ Value.ofString) (g := id) (l := ws) fun w hw =>
      checkValue_eq_ok.2 ⟨rfl, hwords w hw⟩
    rwa [List.map_id] at hall

/-! ### Insertions -/

/-- An insertion of a word or of an array, with a key and values of any shape. -/
inductive Insertion where
  | word (key value : Value)
  | array (key values : Value)

namespace Insertion

/-- What an insertion makes of parameters. -/
def insert (p : Params) : Insertion → Except Failure Params
  | word key value => p.insertString key value
  | array key values => p.insertArray key values

/-- The steps of an insertion in order, on parameters that keep what was done before a step that fails. -/
def steps : Insertion → ExceptT Failure (StateM Params) Unit
  | word key value => do
    let key ← checkWord isKeyChar key
    let value ← checkWord isValueChar value
    modify fun p => p.put key (.word value)
  | array key values => do
    let key ← checkWord isKeyChar key
    let vs ← items values
    let words ← vs.mapM fun v => (checkWord isValueChar v : ExceptT Failure (StateM Params) String)
    modify fun p => p.put key (.array words)

/-- Performs the steps of an insertion on parameters. -/
def perform (i : Insertion) (p : Params) : Except Failure Unit × Params := i.steps.run.run p

/-- An acceptable insertion sets a key to a value: the key is a word, and the value, or every item of it, is one. -/
def Sets (key : String) (value : ParamValue) : Insertion → Prop
  | word k v => (k = .ofString key ∧ IsKey key) ∧ ∃ w, (v = .ofString w ∧ IsWord w) ∧ value = .word w
  | array k vs => (k = .ofString key ∧ IsKey key) ∧
      ∃ ws : List String, items vs = .ok (ws.map Value.ofString) ∧ (∀ w ∈ ws, IsWord w) ∧ value = .array ws

variable {i : Insertion} {p : Params} {key : String} {value : ParamValue}

private theorem run_lift {α β : Type} (x : Except Failure α) (f : α → ExceptT Failure (StateM Params) β) (p : Params) :
    ((liftM x : ExceptT Failure (StateM Params) α) >>= f).run.run p = match x with
      | .ok a => (f a).run.run p
      | .error e => (.error e, p) := by
  cases x <;> rfl

private theorem run_mapM {α β γ : Type} (f : α → Except Failure β) (l : List α)
    (g : List β → ExceptT Failure (StateM Params) γ) (p : Params) :
    (l.mapM (fun a => (f a : ExceptT Failure (StateM Params) β)) >>= g).run.run p = match l.mapM f with
      | .ok bs => (g bs).run.run p
      | .error e => (.error e, p) := by
  induction l generalizing g with
  | nil => rfl
  | cons a l ih =>
    rw [List.mapM_cons, List.mapM_cons, bind_assoc, run_lift]
    cases f a with
    | error e => rfl
    | ok b =>
      dsimp only
      rw [bind_assoc, ih]
      cases l.mapM f <;> rfl

/-- An insertion that is refused leaves parameters as they were. -/
theorem perform_eq (i : Insertion) (p : Params) :
    i.perform p = match i.insert p with
      | .ok q => (.ok (), q)
      | .error e => (.error e, p) := by
  cases i with
  | word key value =>
    simp only [perform, steps, insert, insertString]
    rw [run_lift]
    cases checkWord isKeyChar key with
    | error e => rfl
    | ok key =>
      dsimp only
      rw [run_lift]
      cases checkWord isValueChar value <;> rfl
  | array key values =>
    simp only [perform, steps, insert, insertArray]
    rw [run_lift]
    cases checkWord isKeyChar key with
    | error e => rfl
    | ok key =>
      dsimp only
      rw [run_lift]
      cases items values with
      | error e => rfl
      | ok vs =>
        dsimp only
        rw [run_mapM]
        simp only [bind, Except.bind]
        cases vs.mapM (checkWord isValueChar) <;> rfl

theorem Sets.insert_eq (h : i.Sets key value) (p : Params) : i.insert p = .ok (p.put key value) := by
  cases i with
  | word k v =>
    obtain ⟨hkey, w, hvalue, rfl⟩ := h
    simp only [insert, insertString, checkKey_eq_ok.2 hkey, checkValue_eq_ok.2 hvalue]
    rfl
  | array k vs =>
    obtain ⟨hkey, ws, hitems, hwords, rfl⟩ := h
    simp only [insert, insertArray, checkKey_eq_ok.2 hkey, hitems, bind, Except.bind,
      checkValues_eq_ok.2 ⟨rfl, hwords⟩]
    rfl

theorem exists_sets_of_insert {q : Params} (h : i.insert p = .ok q) : ∃ key value, i.Sets key value := by
  cases i with
  | word k v =>
    obtain ⟨key, hkey, h⟩ := ok_of_bind h
    obtain ⟨w, hw, -⟩ := ok_of_bind h
    exact ⟨key, .word w, checkKey_eq_ok.1 hkey, w, checkValue_eq_ok.1 hw, rfl⟩
  | array k vs =>
    obtain ⟨key, hkey, h⟩ := ok_of_bind h
    obtain ⟨l, hl, h⟩ := ok_of_bind h
    obtain ⟨ws, hws, -⟩ := ok_of_bind h
    obtain ⟨rfl, hwords⟩ := checkValues_eq_ok.1 hws
    exact ⟨key, .array ws, checkKey_eq_ok.1 hkey, ws, hl, hwords, rfl⟩

theorem Sets.perform_eq (h : i.Sets key value) (p : Params) : i.perform p = (.ok (), p.put key value) := by
  rw [Insertion.perform_eq, h.insert_eq]

/-- An insertion that sets nothing is refused, and leaves parameters as they were. -/
theorem perform_refused (h : ∀ key value, ¬ i.Sets key value) (p : Params) : ∃ e, i.perform p = (.error e, p) := by
  rw [Insertion.perform_eq]
  cases hinsert : i.insert p with
  | error e => exact ⟨e, rfl⟩
  | ok q =>
    obtain ⟨key, value, hsets⟩ := exists_sets_of_insert hinsert
    exact absurd hsets (h key value)

theorem Sets.hasWords (h : i.Sets key value) : IsKey key ∧ HasWords value := by
  cases i with
  | word k v =>
    obtain ⟨hkey, w, hvalue, rfl⟩ := h
    exact ⟨hkey.2, hvalue.2⟩
  | array k vs =>
    obtain ⟨hkey, ws, -, hwords, rfl⟩ := h
    exact ⟨hkey.2, hwords⟩

end Insertion

/-! ### Runs -/

/-- The parameters after a run of insertions, in which the refused ones are passed over. -/
def run (insertions : List Insertion) : Params := insertions.foldl (fun p i => (i.perform p).2) {}

/-- The keys and values that the accepted insertions of a run set. -/
inductive Accepted : List Insertion → List (String × ParamValue) → Prop
  | nil : Accepted [] []
  | accept {i : Insertion} {key : String} {value : ParamValue} {rest : List Insertion} {l : List (String × ParamValue)}
      (h : i.Sets key value) (hrest : Accepted rest l) : Accepted (i :: rest) ((key, value) :: l)
  | refuse {i : Insertion} {rest : List Insertion} {l : List (String × ParamValue)}
      (h : ∀ key value, ¬ i.Sets key value) (hrest : Accepted rest l) : Accepted (i :: rest) l

/-- Some parameters set one after the other. -/
def setAll (l : List (String × ParamValue)) : Params := l.foldl (fun p e => p.put e.1 e.2) {}

/-- The last value that a key is set to. -/
def IsLast (l : List (String × ParamValue)) (key : String) (value : ParamValue) : Prop :=
  ∃ before after, l = before ++ (key, value) :: after ∧ ∀ e ∈ after, e.1 ≠ key

variable {insertions : List Insertion} {l : List (String × ParamValue)} {key key' : String} {value value' : ParamValue}

theorem exists_accepted (insertions : List Insertion) : ∃ l, Accepted insertions l := by
  induction insertions with
  | nil => exact ⟨[], .nil⟩
  | cons i rest ih =>
    obtain ⟨l, hl⟩ := ih
    by_cases h : ∃ key value, i.Sets key value
    · obtain ⟨key, value, hsets⟩ := h
      exact ⟨(key, value) :: l, .accept hsets hl⟩
    · exact ⟨l, .refuse (fun key value hsets => h ⟨key, value, hsets⟩) hl⟩

/-- The parameters of a run are those that the accepted insertions set. -/
theorem Accepted.run_eq (h : Accepted insertions l) : run insertions = setAll l := by
  unfold run setAll
  generalize ({} : Params) = p
  induction h generalizing p with
  | nil => rfl
  | accept hsets _ ih => rw [List.foldl_cons, List.foldl_cons, hsets.perform_eq, ih]
  | refuse hnot _ ih =>
    obtain ⟨e, he⟩ := Insertion.perform_refused hnot p
    rw [List.foldl_cons, he, ih]

theorem Accepted.hasWords (h : Accepted insertions l) : ∀ e ∈ l, IsKey e.1 ∧ HasWords e.2 := by
  induction h with
  | nil => exact nofun
  | accept hsets _ ih => exact List.forall_mem_cons.2 ⟨hsets.hasWords, ih⟩
  | refuse _ _ ih => exact ih

/-! ### Entries -/

theorem keys_putEntry (key : String) (value : ParamValue) (l : List (String × ParamValue)) :
    (putEntry key value l).map Prod.fst = if key ∈ l.map Prod.fst then l.map Prod.fst else l.map Prod.fst ++ [key] := by
  induction l with
  | nil => rfl
  | cons e l ih =>
    unfold putEntry
    by_cases he : e.1 = key
    · rw [if_pos he, List.map_cons, List.map_cons, he, if_pos (List.mem_cons_self ..)]
    · rw [if_neg he, List.map_cons, ih, List.map_cons]
      simp only [List.mem_cons, Ne.symm he, false_or]
      split <;> rfl

theorem mem_putEntry (hnodup : (l.map Prod.fst).Nodup) :
    (key', value') ∈ putEntry key value l ↔ if key' = key then value' = value else (key', value') ∈ l := by
  induction l with
  | nil =>
    rw [putEntry, List.mem_singleton, Prod.mk.injEq]
    split <;> simp_all
  | cons e l ih =>
    rw [List.map_cons, List.nodup_cons] at hnodup
    unfold putEntry
    by_cases he : e.1 = key
    · have hrest : ∀ v, (key, v) ∉ l := fun v hv => hnodup.1 (he ▸ List.mem_map_of_mem hv)
      rw [if_pos he, List.mem_cons, List.mem_cons, Prod.mk.injEq]
      by_cases hkey : key' = key
      · rw [if_pos hkey, hkey]
        exact ⟨fun h => h.elim (·.2) fun h => absurd h (hrest _), fun h => .inl ⟨rfl, h⟩⟩
      · rw [if_neg hkey]
        have hne : (key', value') ≠ e := fun h => hkey (by rw [← he, ← h])
        simp only [hkey, false_and, hne]
    · rw [if_neg he, List.mem_cons, ih hnodup.2, List.mem_cons]
      by_cases hkey : key' = key
      · have hne : (key', value') ≠ e := fun h => he (by rw [← hkey, ← h])
        simp only [if_pos hkey, hne, false_or]
      · simp only [if_neg hkey]

theorem isLast_append (l : List (String × ParamValue)) :
    IsLast (l ++ [(key, value)]) key' value' ↔ if key' = key then value' = value else IsLast l key' value' := by
  constructor
  · rintro ⟨before, after, hsplit, hafter⟩
    rcases List.eq_nil_or_concat after with rfl | ⟨after, last, rfl⟩
    · obtain ⟨rfl, rfl⟩ := Prod.mk.inj (List.singleton_inj.1 (List.append_inj_right' hsplit rfl))
      rw [if_pos rfl]
    · rw [List.concat_eq_append, ← List.cons_append, ← List.append_assoc] at hsplit
      obtain ⟨rfl, hlast⟩ := List.append_inj' hsplit rfl
      obtain rfl : (key, value) = last := List.singleton_inj.1 hlast
      rw [List.concat_eq_append] at hafter
      rw [if_neg fun h => hafter (key, value) (List.mem_append_right _ (List.mem_singleton_self _)) h.symm]
      exact ⟨before, after, rfl, fun e he => hafter e (List.mem_append_left _ he)⟩
  · intro h
    split at h
    · rename_i hkey
      rw [hkey, h]
      exact ⟨l, [], rfl, nofun⟩
    · rename_i hkey
      obtain ⟨before, after, rfl, hafter⟩ := h
      refine ⟨before, after ++ [(key, value)], by simp, fun e he => ?_⟩
      rcases List.mem_append.1 he with he | he
      · exact hafter e he
      · rw [List.mem_singleton.1 he]
        exact fun h => hkey h.symm

theorem IsLast.mem (h : IsLast l key value) : (key, value) ∈ l := by
  obtain ⟨before, after, rfl, -⟩ := h
  exact List.mem_append_right _ (List.mem_cons_self ..)

/-- The keys stand in the order in which they were first set, each with the value that was set last. -/
theorem entries_setAll (l : List (String × ParamValue)) :
    (setAll l).entries.map Prod.fst = (l.map Prod.fst).eraseDups ∧
      ∀ key value, (key, value) ∈ (setAll l).entries ↔ IsLast l key value := by
  induction l using List.reverseRecOn with
  | nil => exact ⟨rfl, fun key value => ⟨nofun, fun h => nomatch h.mem⟩⟩
  | append_singleton l e ih =>
    obtain ⟨hkeys, hvalues⟩ := ih
    have hlast : (setAll (l ++ [e])).entries = putEntry e.1 e.2 (setAll l).entries := by
      unfold setAll
      rw [List.foldl_append]
      rfl
    have hnodup : ((setAll l).entries.map Prod.fst).Nodup := hkeys ▸ nodup_eraseDups _
    refine ⟨?_, fun key value => ?_⟩
    · rw [hlast, keys_putEntry, hkeys, List.map_append, List.eraseDups_append, List.map_singleton]
      simp only [List.mem_eraseDups]
      by_cases he : e.1 ∈ l.map Prod.fst
      · rw [if_pos he]
        simp [List.removeAll, he]
      · rw [if_neg he]
        simp [List.removeAll, he, List.eraseDups_cons]
    · rw [hlast, mem_putEntry hnodup, isLast_append, hvalues]

/-! ### Lines -/

/-- A value as it stands in the parameter file. -/
def shown : ParamValue → String
  | .word w => w
  | .array ws => "( " ++ " ".intercalate ws ++ " )"

/-- The characters of the parameter file, apart from the ends of its lines. -/
def IsLineChar (c : Char) : Prop := c.isAlpha = true ∨ c ∈ ['_', '-', '=', ' ', '(', ')']

instance (c : Char) : Decidable (IsLineChar c) := inferInstanceAs (Decidable (_ ∨ _))

theorem IsWord.not_mem {w : String} (h : IsWord w) {c : Char} (hc : c.isAlpha = false) (hunderscore : c ≠ '_')
    (hhyphen : c ≠ '-') : c ∉ w.toList := by
  intro hmem
  rcases h.2 c hmem with halpha | rfl | rfl
  · rw [hc] at halpha
    cases halpha
  · exact hunderscore rfl
  · exact hhyphen rfl

theorem IsWord.isLineChar {w : String} (h : IsWord w) {c : Char} (hc : c ∈ w.toList) : IsLineChar c := by
  rcases h.2 c hc with halpha | rfl | rfl
  · exact .inl halpha
  · exact .inr (by decide)
  · exact .inr (by decide)

/-- A word needs no quotes. -/
theorem quote_of_isWord {w : String} (h : IsWord w) : Shell.quote w = w := by
  have hsafe : w.toList.all Shell.isSafe = true := by
    refine List.all_eq_true.2 fun c hc => ?_
    rcases h.2 c hc with halpha | rfl | rfl
    · rw [Shell.isSafe, Char.isAlphanum, halpha, Bool.true_or, Bool.true_or]
    · decide
    · decide
  unfold Shell.quote
  rw [if_neg (by simpa using h.1), if_pos hsafe]

theorem line_eq {e : String × ParamValue} (h : HasWords e.2) : line e = "export " ++ e.1 ++ "=" ++ shown e.2 := by
  obtain ⟨key, value⟩ := e
  cases value with
  | word w =>
    simp only [line, quote_of_isWord h]
    rfl
  | array ws =>
    have hquote : ws.map Shell.quote = ws := by
      conv_rhs => rw [← List.map_id ws]
      exact List.map_congr_left fun w hw => quote_of_isWord (h w hw)
    simp only [line, hquote]
    rfl

private theorem toList_shown_array (ws : List String) :
    (shown (.array ws)).toList = ['(', ' '] ++ [' '].intercalate (ws.map String.toList) ++ [' ', ')'] := by
  rw [shown, String.toList_append, String.toList_append, String.toList_intercalate]
  rfl

private theorem mem_intercalate_words {ws : List String} {c : Char}
    (h : c ∈ [' '].intercalate (ws.map String.toList)) : c = ' ' ∨ ∃ w ∈ ws, c ∈ w.toList := by
  induction ws with
  | nil => cases h
  | cons w ws ih =>
    cases ws with
    | nil => exact .inr ⟨w, List.mem_singleton_self w, by simpa using h⟩
    | cons v ws =>
      rw [List.map_cons, List.map_cons, List.intercalate_cons_cons, List.mem_append, List.mem_append,
        List.mem_singleton] at h
      rcases h with (h | h) | h
      · exact .inr ⟨w, List.mem_cons_self .., h⟩
      · exact .inl h
      · exact (ih h).imp_right fun ⟨x, hx, hc⟩ => ⟨x, List.mem_cons_of_mem _ hx, hc⟩

private theorem isLineChar_of_all {cs : List Char} (h : cs.all (IsLineChar ·) = true) {c : Char} (hc : c ∈ cs) :
    IsLineChar c :=
  of_decide_eq_true (List.all_eq_true.1 h c hc)

theorem isLineChar_of_mem_line {e : String × ParamValue} (hkey : IsKey e.1) (hvalue : HasWords e.2) {c : Char}
    (hc : c ∈ (line e).toList) : IsLineChar c := by
  rw [line_eq hvalue, String.toList_append, String.toList_append, String.toList_append, List.mem_append,
    List.mem_append, List.mem_append] at hc
  rcases hc with ((hc | hc) | hc) | hc
  · exact isLineChar_of_all (by decide) hc
  · exact hkey.isWord.isLineChar hc
  · exact isLineChar_of_all (by decide) hc
  · obtain ⟨key, value⟩ := e
    cases value with
    | word w => exact IsWord.isLineChar hvalue hc
    | array ws =>
      rw [toList_shown_array, List.mem_append, List.mem_append] at hc
      rcases hc with (hc | hc) | hc
      · exact isLineChar_of_all (by decide) hc
      · rcases mem_intercalate_words hc with rfl | ⟨w, hw, hc⟩
        · exact .inr (by decide)
        · exact (hvalue w hw).isLineChar hc
      · exact isLineChar_of_all (by decide) hc

/-! ### What lines tell -/

/-- Values are told apart by how they are shown: a word does not begin with a parenthesis, and the items of an array
are the pieces between blanks. -/
theorem shown_injective {v w : ParamValue} (hv : HasWords v) (hw : HasWords w) (h : shown v = shown w) : v = w := by
  have hparen : ∀ {u ws}, IsWord u → shown (.word u) ≠ shown (.array ws) := by
    intro u ws hu heq
    refine hu.not_mem (c := '(') (by decide) (by decide) (by decide) ?_
    rw [show u.toList = (shown (.array ws)).toList from congrArg String.toList heq, toList_shown_array]
    exact List.mem_cons_self ..
  cases v with
  | word v =>
    cases w with
    | word w => exact congrArg _ h
    | array ws => exact absurd h (hparen hv)
  | array vs =>
    cases w with
    | word w => exact absurd h.symm (hparen hw)
    | array ws =>
      have hlists := congrArg String.toList h
      rw [toList_shown_array, toList_shown_array] at hlists
      have hjoined := List.append_cancel_left (List.append_cancel_right hlists)
      have hback : ∀ {us : List String}, (∀ u ∈ us, IsWord u) → us ≠ [] →
          splitAt ' ' ([' '].intercalate (us.map String.toList)) = us.map String.toList := by
        intro us hus hne
        refine Path.splitAt_intercalate (fun hnil => hne (List.map_eq_nil_iff.1 hnil)) fun p hp => ?_
        obtain ⟨u, hu, rfl⟩ := List.mem_map.1 hp
        exact (hus u hu).not_mem (by decide) (by decide) (by decide)
      have hempty : ∀ {us : List String}, (∀ u ∈ us, IsWord u) →
          [] = [' '].intercalate (us.map String.toList) → us = [] := by
        intro us hus hnil
        by_contra hne
        have hpieces := hback hus hne
        rw [← hnil] at hpieces
        obtain ⟨u, rfl, hu⟩ := List.map_eq_singleton_iff.1 hpieces.symm
        exact (hus u (List.mem_singleton_self u)).1 (String.toList_eq_nil_iff.1 hu)
      by_cases hvs : vs = []
      · rw [hvs, hempty hw (by rw [← hjoined, hvs]; rfl)]
      · have hws : ws ≠ [] := fun hws => hvs (hempty hv (by rw [hjoined, hws]; rfl))
        have hmaps : vs.map String.toList = ws.map String.toList := by
          rw [← hback hv hvs, ← hback hw hws, hjoined]
        rw [List.map_injective_iff.2 (fun _ _ => String.toList_inj.1) hmaps]

theorem line_injective {e e' : String × ParamValue} (h : IsKey e.1 ∧ HasWords e.2) (h' : IsKey e'.1 ∧ HasWords e'.2)
    (heq : line e = line e') : e = e' := by
  have hequals : ∀ {k}, IsKey k → '=' ∉ k.toList := fun hk => hk.isWord.not_mem (by decide) (by decide) (by decide)
  have hlists := congrArg String.toList heq
  simp only [line_eq h.2, line_eq h'.2, String.toList_append, List.append_assoc] at hlists
  have hrest := List.append_cancel_left hlists
  have hpieces := congrArg (splitAt '=') hrest
  rw [show "=".toList = ['='] from rfl, List.singleton_append, List.singleton_append,
    Path.splitAt_append (hequals h.1), Path.splitAt_append (hequals h'.1)] at hpieces
  have hkey : e.1 = e'.1 := String.toList_inj.1 (List.cons.inj hpieces).1
  rw [hkey] at hrest
  have hshown := List.append_cancel_left (List.append_cancel_left hrest)
  exact Prod.ext hkey (shown_injective h.2 h'.2 (String.toList_inj.1 hshown))

private theorem splitAt_joinLines {ls : List String} (h : ∀ l ∈ ls, '\n' ∉ l.toList) :
    splitAt '\n' (joinLines ls).toList = ls.map String.toList ++ [[]] := by
  unfold joinLines
  rw [String.toList_join]
  induction ls with
  | nil => rfl
  | cons l ls ih =>
    rw [List.map_cons, List.flatMap_cons, String.toList_append, List.append_assoc,
      show "\n".toList = ['\n'] from rfl, List.singleton_append, Path.splitAt_append (h l (List.mem_cons_self ..)),
      ih fun x hx => h x (List.mem_cons_of_mem _ hx)]
    rfl

theorem ofString_bytes_injective {v w : String} (h : Bytes.ofString v = Bytes.ofString w) : v = w :=
  String.toByteArray_inj.1 (ByteArray.ext (Array.toList_inj.1 h))

/-! ### Runs of insertions -/

theorem hasWords_of_mem_run {e : String × ParamValue} (he : e ∈ (run insertions).entries) :
    IsKey e.1 ∧ HasWords e.2 := by
  obtain ⟨l, hl⟩ := exists_accepted insertions
  rw [hl.run_eq] at he
  exact hl.hasWords e ((entries_setAll l).2 e.1 e.2 |>.1 he).mem

/-- Parameters with the same lines are the same. -/
theorem eq_of_lines {more : List Insertion} (h : (run insertions).lines = (run more).lines) :
    run insertions = run more := by
  have hentries : ∀ {es es' : List (String × ParamValue)}, (∀ e ∈ es, IsKey e.1 ∧ HasWords e.2) →
      (∀ e ∈ es', IsKey e.1 ∧ HasWords e.2) → es.map line = es'.map line → es = es' := by
    intro es es' hes hes' heq
    induction es generalizing es' with
    | nil => exact (List.map_eq_nil_iff.1 heq.symm).symm
    | cons e es ih =>
      cases es' with
      | nil => cases heq
      | cons e' es' =>
        obtain ⟨hline, hrest⟩ := List.cons.inj heq
        obtain ⟨he, hes⟩ := List.forall_mem_cons.1 hes
        obtain ⟨he', hes'⟩ := List.forall_mem_cons.1 hes'
        rw [line_injective he he' hline, ih hes hes' hrest]
  exact congrArg Params.mk (hentries (fun _ he => hasWords_of_mem_run he) (fun _ he => hasWords_of_mem_run he) h)

/-- Parameters with the same file are the same. -/
theorem eq_of_content {more : List Insertion} (h : (run insertions).content = (run more).content) :
    run insertions = run more := by
  have hplain : ∀ {is : List Insertion}, ∀ l ∈ (run is).lines, '\n' ∉ l.toList := by
    intro is l hl hmem
    obtain ⟨e, he, rfl⟩ := List.mem_map.1 hl
    obtain ⟨hkey, hvalue⟩ := hasWords_of_mem_run he
    exact (by decide : ¬ IsLineChar '\n') (isLineChar_of_mem_line hkey hvalue hmem)
  have hpieces := congrArg (splitAt '\n' ∘ String.toList) (ofString_bytes_injective h)
  rw [Function.comp_apply, Function.comp_apply, splitAt_joinLines hplain, splitAt_joinLines hplain] at hpieces
  exact eq_of_lines (List.map_injective_iff.2 (fun _ _ => String.toList_inj.1) (List.append_cancel_right hpieces))

/-- A run of insertions is told by the accepted ones.  An insertion is accepted if it sets a word to a word or to an
array of words, and is refused otherwise without a change.  After a run there is one line for each key, in the order
in which the keys were first set, and it shows the value that was set last.  The lines, and the file of them, tell the
parameters apart, and have none but safe characters. -/
theorem run_tells_accepted :
    (∀ (i : Insertion) (p : Params),
      (∃ key value, i.Sets key value ∧ i.perform p = (.ok (), p.put key value)) ∨
        (∀ key value, ¬ i.Sets key value) ∧ ∃ e, i.perform p = (.error e, p)) ∧
    (∀ insertions, ∃ l, Accepted insertions l ∧ run insertions = setAll l ∧
      (run insertions).entries.map Prod.fst = (l.map Prod.fst).eraseDups ∧
      (∀ key value, (key, value) ∈ (run insertions).entries ↔ IsLast l key value) ∧
      (run insertions).lines = (run insertions).entries.map fun e => "export " ++ e.1 ++ "=" ++ shown e.2) ∧
    (∀ insertions more, (run insertions).lines = (run more).lines ↔ run insertions = run more) ∧
    (∀ insertions more, (run insertions).content = (run more).content ↔ run insertions = run more) ∧
    ∀ insertions, ∀ l ∈ (run insertions).lines, ∀ c ∈ l.toList, IsLineChar c := by
  refine ⟨fun i p => ?_, fun insertions => ?_, fun _ _ => ⟨eq_of_lines, fun h => by rw [h]⟩,
    fun _ _ => ⟨eq_of_content, fun h => by rw [h]⟩, fun insertions l hl c hc => ?_⟩
  · by_cases h : ∃ key value, i.Sets key value
    · obtain ⟨key, value, hsets⟩ := h
      exact .inl ⟨key, value, hsets, hsets.perform_eq p⟩
    · have hnot : ∀ key value, ¬ i.Sets key value := fun key value hsets => h ⟨key, value, hsets⟩
      exact .inr ⟨hnot, Insertion.perform_refused hnot p⟩
  · obtain ⟨l, hl⟩ := exists_accepted insertions
    obtain ⟨hkeys, hvalues⟩ := entries_setAll l
    refine ⟨l, hl, hl.run_eq, hl.run_eq ▸ hkeys, hl.run_eq ▸ hvalues, List.map_congr_left fun e he => ?_⟩
    exact line_eq (hasWords_of_mem_run he).2
  · obtain ⟨e, he, rfl⟩ := List.mem_map.1 hl
    obtain ⟨hkey, hvalue⟩ := hasWords_of_mem_run he
    exact isLineChar_of_mem_line hkey hvalue hc

/-- A key that is set again keeps its place, and an array is refused as a whole. -/
example :
    (run [.word (.ofString "a") (.ofString "x"), .word (.ofString "b") (.ofString "y"),
      .array (.ofString "b") (.list [.ofString "z", .ofString "!"]),
      .array (.ofString "a") (.list [.ofString "v", .ofString "-"])]).lines =
      ["export a=( v - )", "export b=y"] := by
  decide +kernel

end Handout.Params
