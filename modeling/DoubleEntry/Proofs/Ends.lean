import DoubleEntry.Checked

/-!
# What computations end with

`x.Ends P E` says of a computation that a result of it has the property `P`, and a failure the
property `E`. The lemmas follow how computations are put together; `foldlM_eq_error_iff` tells where
a run fails. Those on `ExceptT` take apart what gives a result where there are other errors, too,
and `SameOutcome` relates two such computations.
-/

namespace DoubleEntry.Checked

variable {α β σ δ : Type} {P : α → Prop} {Q : β → Prop} {E : ArithmeticError → Prop}
  {x : Checked α}

/-- What a strict computation gives is its result. -/
theorem Gives.value? {strict : Bool} {a : α} (h : x.Gives strict a) : x.value? = some a := by
  cases strict with
  | true => rw [gives_true.1 h, value?_exact]
  | false => exact gives_false.1 h

/-- A result, exact or rounded, has one property, or a failure has the other. -/
inductive Ends (P : α → Prop) (E : ArithmeticError → Prop) : Checked α → Prop
  | exact {a : α} (h : P a) : Ends P E (.exact a)
  | rounded {a : α} (h : P a) : Ends P E (.rounded a)
  | error {e : ArithmeticError} (h : E e) : Ends P E (.error e)

namespace Ends

theorem of_value? (h : x.Ends P E) {a : α} (ha : x.value? = some a) : P a := by
  cases h with
  | exact h | rounded h => exact Option.some.inj ha ▸ h
  | error => cases ha

theorem of_error {e : ArithmeticError} (h : (Checked.error e : Checked α).Ends P E) : E e := by
  cases h with
  | error h => exact h

theorem iff : x.Ends P E ↔ (∀ a, x.value? = some a → P a) ∧ ∀ e, x = .error e → E e := by
  refine ⟨fun h => ⟨fun a => h.of_value?, fun e he => of_error (he ▸ h)⟩, fun ⟨hP, hE⟩ => ?_⟩
  cases x with
  | exact a => exact .exact (hP a rfl)
  | rounded a => exact .rounded (hP a rfl)
  | error e => exact .error (hE e rfl)

/-- Any computation ends with what it gives, or fails somehow. -/
theorem value? (x : Checked α) : x.Ends (fun a => x.value? = some a) fun _ => True :=
  iff.2 ⟨fun _ => id, fun _ _ => trivial⟩

theorem mono {P' : α → Prop} {E' : ArithmeticError → Prop} (h : x.Ends P E)
    (hP : ∀ a, P a → P' a) (hE : ∀ e, E e → E' e) : x.Ends P' E' := by
  cases h with
  | exact h => exact .exact (hP _ h)
  | rounded h => exact .rounded (hP _ h)
  | error h => exact .error (hE _ h)

theorem afterRounding (h : x.Ends P E) : x.afterRounding.Ends P E := by
  cases h with
  | exact h | rounded h => exact .rounded h
  | error h => exact .error h

theorem bind {f : α → Checked β} (h : x.Ends P E) (hf : ∀ a, P a → (f a).Ends Q E) :
    (x >>= f).Ends Q E := by
  cases h with
  | exact h => exact hf _ h
  | rounded h => exact (hf _ h).afterRounding
  | error h => exact .error h

/-- What the steps of a run keep holds after the run, and the run fails only as its steps do. -/
theorem foldlM {R : σ → Prop} {f : σ → δ → Checked σ} {l : List δ}
    (hf : ∀ d ∈ l, ∀ s, R s → (f s d).Ends R E) {s : σ} (hs : R s) : (l.foldlM f s).Ends R E := by
  induction l generalizing s with
  | nil => exact .exact hs
  | cons d l ih =>
    rw [List.foldlM_cons]
    exact (hf d List.mem_cons_self s hs).bind fun s' hs' =>
      ih (fun d hd => hf d (List.mem_cons_of_mem _ hd)) hs'

/-- What is made of each element has a property that the element gives it. -/
theorem mapM {R : δ → β → Prop} {f : δ → Checked β} {l : List δ}
    (hf : ∀ d ∈ l, (f d).Ends (R d) E) :
    (l.mapM f).Ends (fun bs => ∀ b ∈ bs, ∃ d ∈ l, R d b) E := by
  induction l with
  | nil => exact .exact (by simp)
  | cons d l ih =>
    obtain ⟨hd, hl⟩ := List.forall_mem_cons.1 hf
    rw [List.mapM_cons]
    refine hd.bind fun b hb => (ih hl).bind fun bs hbs => .exact ?_
    refine List.forall_mem_cons.2 ⟨⟨d, List.mem_cons_self, hb⟩, fun b hb => ?_⟩
    obtain ⟨d, hd, hdb⟩ := hbs b hb
    exact ⟨d, List.mem_cons_of_mem _ hd, hdb⟩

end Ends

/-! ## Failures -/

variable {e : ArithmeticError}

theorem exists_value?_iff : (∃ a, x.value? = some a) ↔ ∀ e, x ≠ .error e := by
  cases x <;> simp

theorem bind_eq_error_iff {f : α → Checked β} :
    x >>= f = .error e ↔ x = .error e ∨ ∃ a, x.value? = some a ∧ f a = .error e := by
  cases x with
  | exact a => simp
  | rounded a => cases h : f a <;> simp [afterRounding, h]
  | error e => simp

/-- A run fails at its first step that does. -/
theorem foldlM_eq_error_iff {f : σ → δ → Checked σ} {l : List δ} {s : σ} :
    l.foldlM f s = .error e ↔ ∃ before d after s', l = before ++ d :: after ∧
      (before.foldlM f s).value? = some s' ∧ f s' d = .error e := by
  induction l generalizing s with
  | nil => simp
  | cons d l ih =>
    rw [List.foldlM_cons, bind_eq_error_iff]
    constructor
    · rintro (h | ⟨next, hnext, h⟩)
      · exact ⟨[], d, l, s, rfl, rfl, h⟩
      · obtain ⟨before, d', after, s', rfl, hbefore, hd⟩ := ih.1 h
        exact ⟨d :: before, d', after, s', rfl, by simp [hnext, hbefore], hd⟩
    · rintro ⟨before, d', after, s', hl, hbefore, hd⟩
      cases before with
      | nil =>
        obtain ⟨rfl, rfl⟩ := List.cons.inj hl
        obtain rfl := Option.some.inj hbefore
        exact .inl hd
      | cons d'' before =>
        obtain ⟨rfl, rfl⟩ := List.cons.inj hl
        rw [List.foldlM_cons, value?_bind, Option.bind_eq_some_iff] at hbefore
        obtain ⟨next, hnext, hbefore⟩ := hbefore
        exact .inr ⟨next, hnext, ih.2 ⟨before, d', after, s', rfl, hbefore, hd⟩⟩

/-- Steps that both fail or give results that are related, one after the other. -/
theorem rel_bind {α' β' : Type} {R : α → β → Prop} {S : α' → β' → Prop} {y : Checked β}
    {f : α → Checked α'} {g : β → Checked β'} (h : Option.Rel R x.value? y.value?)
    (hfg : ∀ a b, R a b → Option.Rel S (f a).value? (g b).value?) :
    Option.Rel S (x >>= f).value? (y >>= g).value? := by
  rw [value?_bind, value?_bind]
  generalize x.value? = rx, y.value? = ry at h
  cases h with
  | none => exact .none
  | some h => exact hfg _ _ h

/-! ## Results where there are other errors -/

section ExceptT

variable {ε : Type} {strict : Bool}

/-- A step after another gives a result if both do. -/
theorem bind_gives_ok {x : ExceptT ε Checked α} {f : α → ExceptT ε Checked β} {b : β} :
    (x >>= f).run.Gives strict (.ok b) ↔
      ∃ a, x.run.Gives strict (.ok a) ∧ (f a).run.Gives strict (.ok b) := by
  rw [ExceptT.run_bind, bind_gives]
  constructor
  · rintro ⟨result, hx, h⟩
    cases result with
    | error e => cases exact_gives.1 h
    | ok a => exact ⟨a, hx, h⟩
  · rintro ⟨a, hx, h⟩
    exact ⟨.ok a, hx, h⟩

theorem pure_gives_ok {a b : α} :
    (pure a : ExceptT ε Checked α).run.Gives strict (.ok b) ↔ a = b := by
  simp

theorem throw_not_gives_ok {error : ε} {a : α} :
    ¬(throw error : ExceptT ε Checked α).run.Gives strict (.ok a) := by
  simp [throw, throwThe, MonadExceptOf.throw, ExceptT.mk, ExceptT.run]

theorem lift_gives_ok {a : α} :
    (liftM x : ExceptT ε Checked α).run.Gives strict (.ok a) ↔ x.Gives strict a := by
  rw [ExceptT.run_liftM, map_eq_pure_bind, bind_gives]
  simp

/-- A run over a list whose steps give what a function gives, where they give anything, is the map
of the function. -/
theorem mapM_gives_ok {f : α → ExceptT ε Checked β} {P : α → Prop} {g : α → β}
    (hf : ∀ a b, (f a).run.Gives strict (.ok b) ↔ P a ∧ b = g a) {l : List α} {l' : List β} :
    (l.mapM f).run.Gives strict (.ok l') ↔ (∀ a ∈ l, P a) ∧ l' = l.map g := by
  induction l generalizing l' with
  | nil =>
    rw [List.mapM_nil, pure_gives_ok]
    simp [eq_comm]
  | cons a l ih =>
    rw [List.mapM_cons, bind_gives_ok]
    constructor
    · rintro ⟨b, hb, h⟩
      obtain ⟨bs, hbs, h⟩ := bind_gives_ok.1 h
      obtain ⟨ha, rfl⟩ := (hf a b).1 hb
      obtain ⟨hl, rfl⟩ := ih.1 hbs
      exact ⟨List.forall_mem_cons.2 ⟨ha, hl⟩, (pure_gives_ok.1 h).symm⟩
    · rintro ⟨hP, rfl⟩
      obtain ⟨ha, hl⟩ := List.forall_mem_cons.1 hP
      refine ⟨g a, (hf a _).2 ⟨ha, rfl⟩, bind_gives_ok.2 ⟨l.map g, ih.2 ⟨hl, rfl⟩, ?_⟩⟩
      exact pure_gives_ok.2 rfl

/-! Other errors. -/

variable {error : ε}

/-- Of two steps the first ends with an error, or it gives a result with which the second does. -/
theorem bind_gives_error {x : ExceptT ε Checked α} {f : α → ExceptT ε Checked β} :
    (x >>= f).run.Gives strict (.error error) ↔ x.run.Gives strict (.error error) ∨
      ∃ a, x.run.Gives strict (.ok a) ∧ (f a).run.Gives strict (.error error) := by
  rw [ExceptT.run_bind, bind_gives]
  constructor
  · rintro ⟨result, hx, h⟩
    cases result with
    | error e =>
      obtain rfl := Except.error.inj (exact_gives.1 h)
      exact .inl hx
    | ok a => exact .inr ⟨a, hx, h⟩
  · rintro (hx | ⟨a, hx, h⟩)
    · exact ⟨.error error, hx, exact_gives.2 rfl⟩
    · exact ⟨.ok a, hx, h⟩

theorem pure_not_gives_error {a : α} :
    ¬(pure a : ExceptT ε Checked α).run.Gives strict (.error error) := by
  simp

theorem lift_not_gives_error :
    ¬(liftM x : ExceptT ε Checked α).run.Gives strict (.error error) := by
  rw [ExceptT.run_liftM, map_eq_pure_bind, bind_gives]
  simp

/-- A run over a list ends with the error of a step. -/
theorem exists_of_mapM_gives_error {f : α → ExceptT ε Checked β} {l : List α}
    (h : (l.mapM f).run.Gives strict (.error error)) :
    ∃ a ∈ l, (f a).run.Gives strict (.error error) := by
  induction l with
  | nil => exact absurd h pure_not_gives_error
  | cons a l ih =>
    rw [List.mapM_cons] at h
    rcases bind_gives_error.1 h with ha | ⟨b, -, h⟩
    · exact ⟨a, List.mem_cons_self, ha⟩
    · rcases bind_gives_error.1 h with hl | ⟨bs, -, h⟩
      · obtain ⟨a', ha', h'⟩ := ih hl
        exact ⟨a', List.mem_cons_of_mem a ha', h'⟩
      · exact absurd h pure_not_gives_error

theorem exists_of_foldlM_gives_error {f : σ → δ → ExceptT ε Checked σ} {l : List δ} {s : σ}
    (h : (l.foldlM f s).run.Gives strict (.error error)) :
    ∃ d ∈ l, ∃ s, (f s d).run.Gives strict (.error error) := by
  induction l generalizing s with
  | nil => exact absurd h pure_not_gives_error
  | cons d l ih =>
    rw [List.foldlM_cons] at h
    rcases bind_gives_error.1 h with hd | ⟨s', -, h⟩
    · exact ⟨d, List.mem_cons_self, s, hd⟩
    · obtain ⟨d', hd', h'⟩ := ih h
      exact ⟨d', List.mem_cons_of_mem d hd', h'⟩

/-! The same for results that may be rounded. -/

theorem bind_eq_ok {x : ExceptT ε Checked α} {f : α → ExceptT ε Checked β} {b : β} :
    (x >>= f).run.value? = some (.ok b) ↔
      ∃ a, x.run.value? = some (.ok a) ∧ (f a).run.value? = some (.ok b) := by
  simp only [← gives_false, bind_gives_ok]

theorem lift_eq_ok {a : α} :
    (liftM x : ExceptT ε Checked α).run.value? = some (.ok a) ↔ x.value? = some a := by
  rw [← gives_false, lift_gives_ok, gives_false]

theorem pure_eq_ok {a b : α} :
    (pure a : ExceptT ε Checked α).run.value? = some (.ok b) ↔ a = b := by
  rw [← gives_false, pure_gives_ok]

theorem throw_ne_ok {error : ε} {a : α} :
    (throw error : ExceptT ε Checked α).run.value? ≠ some (.ok a) :=
  fun h => throw_not_gives_ok (gives_false.2 h)

/-! ## Two computations side by side -/

/-- Both fail, both end with an error, or both give results, and these are related. -/
inductive SameOutcome (R : α → β → Prop) : Option (Except ε α) → Option (Except ε β) → Prop
  | failed : SameOutcome R none none
  | error {e e' : ε} : SameOutcome R (some (.error e)) (some (.error e'))
  | result {a : α} {b : β} (h : R a b) : SameOutcome R (some (.ok a)) (some (.ok b))

namespace SameOutcome

variable {α' β' : Type} {R : α → β → Prop} {S : α' → β' → Prop}

theorem value?_run_bind (x : ExceptT ε Checked α) (f : α → ExceptT ε Checked α') :
    (x >>= f).run.value? = x.run.value?.bind fun
      | .ok a => (f a).run.value?
      | .error e => some (.error e) := by
  rw [ExceptT.run_bind, value?_bind]
  refine congrArg _ (funext fun result => ?_)
  cases result <;> rfl

/-- Steps with the same outcome, one after the other. -/
theorem bind {x : ExceptT ε Checked α} {y : ExceptT ε Checked β} {f : α → ExceptT ε Checked α'}
    {g : β → ExceptT ε Checked β'} (h : SameOutcome R x.run.value? y.run.value?)
    (hfg : ∀ a b, x.run.value? = some (.ok a) → y.run.value? = some (.ok b) → R a b →
      SameOutcome S (f a).run.value? (g b).run.value?) :
    SameOutcome S (x >>= f).run.value? (y >>= g).run.value? := by
  rw [value?_run_bind, value?_run_bind]
  generalize x.run.value? = rx, y.run.value? = ry at h hfg
  cases h with
  | failed => exact .failed
  | error => exact .error
  | result h => exact hfg _ _ rfl rfl h

theorem pure {a : α} {b : β} (h : R a b) :
    SameOutcome R (Pure.pure a : ExceptT ε Checked α).run.value?
      (Pure.pure b : ExceptT ε Checked β).run.value? :=
  .result h

theorem throw {e e' : ε} :
    SameOutcome R (MonadExcept.throw e : ExceptT ε Checked α).run.value?
      (MonadExcept.throw e' : ExceptT ε Checked β).run.value? :=
  .error

/-- What follows an error does not matter. -/
theorem throw_bind {e e' : ε} (f : α → ExceptT ε Checked α') (g : β → ExceptT ε Checked β') :
    SameOutcome S (MonadExcept.throw e >>= f).run.value?
      (MonadExcept.throw e' >>= g).run.value? :=
  (throw (R := fun _ _ => False)).bind fun _ _ _ _ h => h.elim

theorem lift {x : Checked α} {y : Checked β} (h : Option.Rel R x.value? y.value?) :
    SameOutcome R (liftM x : ExceptT ε Checked α).run.value?
      (liftM y : ExceptT ε Checked β).run.value? := by
  rw [ExceptT.run_liftM, ExceptT.run_liftM, map_eq_pure_bind, map_eq_pure_bind, value?_bind,
    value?_bind]
  generalize x.value? = rx, y.value? = ry at h
  cases h with
  | none => exact .failed
  | some h => exact .result h

/-- Runs over one list whose steps keep states related. -/
theorem foldlM {σ' : Type} {R : σ → σ' → Prop} {f : σ → δ → ExceptT ε Checked σ}
    {g : σ' → δ → ExceptT ε Checked σ'} {l : List δ}
    (hfg : ∀ d ∈ l, ∀ s s', R s s' → SameOutcome R (f s d).run.value? (g s' d).run.value?)
    {s : σ} {s' : σ'} (h : R s s') :
    SameOutcome R (l.foldlM f s).run.value? (l.foldlM g s').run.value? := by
  induction l generalizing s s' with
  | nil => exact .result h
  | cons d l ih =>
    rw [List.foldlM_cons, List.foldlM_cons]
    refine (hfg d List.mem_cons_self s s' h).bind fun next next' _ _ hnext => ?_
    exact ih (fun e he => hfg e (List.mem_cons_of_mem d he)) hnext

end SameOutcome

end ExceptT

end DoubleEntry.Checked
