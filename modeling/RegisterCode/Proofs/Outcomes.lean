import RegisterCode.Action

/-! How operations end. A run is followed step by step: either every step succeeds
and hands its state on, or the first failure is the failure of the whole. -/
namespace RegisterCode

/-- A failure that the program under compilation can cause. The others mean that the
builders were used against their rules. -/
def Error.IsProgramFault : Error → Prop
  | .outOfRange _ | .unsupported .. => True
  | .unresolved kind _ => kind = .loopTarget
  | .redeclared kind _ _ => kind = .variable
  | .discipline _ => False

theorem except_bind_eq_ok {ε α β : Type} {first : Except ε α} {next : α → Except ε β}
    {result : β} :
    first >>= next = .ok result ↔ ∃ value, first = .ok value ∧ next value = .ok result := by
  cases first with
  | ok value =>
    constructor
    · intro h
      exact ⟨value, rfl, h⟩
    · rintro ⟨_, ⟨⟩, h⟩
      exact h
  | error error => simp [bind, Except.bind]

theorem except_bind_eq_error {ε α β : Type} {first : Except ε α} {next : α → Except ε β}
    {fault : ε} :
    first >>= next = .error fault ↔
      first = .error fault ∨ ∃ value, first = .ok value ∧ next value = .error fault := by
  cases first with
  | ok value => simp [bind, Except.bind]
  | error error => simp [bind, Except.bind]

namespace Action

variable {σ τ α β : Type}

/-- From this state the operation succeeds with `post`, or the program is at fault. -/
structure Ensures (action : Action σ α) (state : σ) (post : α → σ → Prop) : Prop where
  of_ok {value : α} {after : σ} : action state = .ok value after → post value after
  of_error {error : Error} {after : σ} : action state = .error error after → error.IsProgramFault

theorem ensures_of_eq_ok {action : Action σ α} {state after : σ} {post : α → σ → Prop}
    {value : α} (hrun : action state = .ok value after) (h : post value after) :
    action.Ensures state post := by
  constructor
  · intro value' after' hrun'
    rw [hrun] at hrun'
    injection hrun' with hvalue hafter
    rwa [← hvalue, ← hafter]
  · intro error after' hrun'
    simp [hrun] at hrun'

theorem ensures_of_eq_error {action : Action σ α} {state after : σ} {post : α → σ → Prop}
    {error : Error} (hrun : action state = .error error after) (h : error.IsProgramFault) :
    action.Ensures state post := by
  constructor
  · intro value after' hrun'
    simp [hrun] at hrun'
  · intro error' after' hrun'
    rw [hrun] at hrun'
    injection hrun' with herror
    rwa [← herror]

theorem ensures_iff {action : Action σ α} {state : σ} {post : α → σ → Prop} :
    action.Ensures state post ↔
      match action state with
      | .ok value after => post value after
      | .error error _ => error.IsProgramFault := by
  cases hrun : action state with
  | ok value after => exact ⟨fun h => h.of_ok hrun, ensures_of_eq_ok hrun⟩
  | error error after => exact ⟨fun h => h.of_error hrun, ensures_of_eq_error hrun⟩

theorem Ensures.mono {action : Action σ α} {state : σ} {post weaker : α → σ → Prop}
    (h : action.Ensures state post) (himp : ∀ value after, post value after → weaker value after) :
    action.Ensures state weaker :=
  ⟨fun hrun => himp _ _ (h.of_ok hrun), h.of_error⟩

theorem Ensures.congr {action action' : Action σ α} {state : σ} {post : α → σ → Prop}
    (h : action.Ensures state post) (hsame : action' state = action state) :
    action'.Ensures state post := by
  rw [ensures_iff] at h ⊢
  rwa [hsame]

theorem bind_apply (action : Action σ α) (next : α → Action σ β) (state : σ) :
    (action >>= next) state =
      match action state with
      | .ok value after => next value after
      | .error error after => .error error after := by
  change EStateM.bind action next state = _
  unfold EStateM.bind
  cases action state <;> rfl

theorem Ensures.bind {action : Action σ α} {next : α → Action σ β} {state : σ}
    {middle : α → σ → Prop} {post : β → σ → Prop} (h : action.Ensures state middle)
    (hnext : ∀ value after, middle value after → (next value).Ensures after post) :
    (action >>= next).Ensures state post := by
  have hbind := bind_apply action next state
  cases hrun : action state with
  | ok value after =>
    rw [hrun] at hbind
    have hrest := hnext value after (h.of_ok hrun)
    exact ⟨fun h => hrest.of_ok (hbind.symm.trans h), fun h => hrest.of_error (hbind.symm.trans h)⟩
  | error error after =>
    rw [hrun] at hbind
    exact ensures_of_eq_error hbind (h.of_error hrun)

theorem bind_eq_ok {action : Action σ α} {next : α → Action σ β} {state after : σ} {value : β} :
    (action >>= next) state = .ok value after ↔
      ∃ first middle, action state = .ok first middle ∧ next first middle = .ok value after := by
  rw [bind_apply]
  cases action state with
  | ok first middle =>
    constructor
    · intro h
      exact ⟨first, middle, rfl, h⟩
    · rintro ⟨_, _, ⟨⟩, h⟩
      exact h
  | error error middle => simp

theorem ensures_pure {value : α} {state : σ} {post : α → σ → Prop} (h : post value state) :
    (pure value : Action σ α).Ensures state post :=
  ensures_of_eq_ok rfl h

theorem ensures_get_bind {next : σ → Action σ α} {state : σ} {post : α → σ → Prop}
    (h : (next state).Ensures state post) : (get >>= next).Ensures state post :=
  h.congr rfl

theorem ensures_modify {change : σ → σ} {state : σ} {post : Unit → σ → Prop}
    (h : post () (change state)) : (modify change : Action σ PUnit).Ensures state post :=
  ensures_of_eq_ok rfl h

theorem ensures_modify_bind {change : σ → σ} {next : Unit → Action σ α} {state : σ}
    {post : α → σ → Prop} (h : (next ()).Ensures (change state) post) :
    (modify change >>= next).Ensures state post := by
  rw [ensures_iff] at h ⊢
  exact h

theorem ensures_ofExcept_bind {outcome : Except Error α} {next : α → Action σ β} {state : σ}
    {post : β → σ → Prop} (hfault : ∀ error, outcome = .error error → error.IsProgramFault)
    (h : ∀ value, outcome = .ok value → (next value).Ensures state post) :
    (Action.ofExcept outcome >>= next).Ensures state post := by
  cases outcome with
  | ok value => exact (h value rfl).congr rfl
  | error error => exact ensures_of_eq_error rfl (hfault error rfl)

theorem ensures_throw {error : Error} {state : σ} {post : α → σ → Prop}
    (h : error.IsProgramFault) : (throw error : Action σ α).Ensures state post :=
  ensures_of_eq_error rfl h

theorem pure_eq_ok {value result : α} {state after : σ} :
    (pure value : Action σ α) state = .ok result after ↔ value = result ∧ state = after := by
  change EStateM.Result.ok value state = .ok result after ↔ _
  simp

theorem bind_pure_eq_ok {action : Action σ α} {give : α → β} {state after : σ} {value : β} :
    (do return give (← action)) state = .ok value after ↔
      ∃ first, action state = .ok first after ∧ give first = value := by
  rw [bind_eq_ok]
  constructor
  · rintro ⟨first, middle, hfirst, hreturn⟩
    obtain ⟨hvalue, rfl⟩ := pure_eq_ok.mp hreturn
    exact ⟨first, hfirst, hvalue⟩
  · rintro ⟨first, hfirst, hvalue⟩
    exact ⟨first, after, hfirst, pure_eq_ok.mpr ⟨hvalue, rfl⟩⟩

theorem get_eq_ok {state after result : σ} :
    (get : Action σ σ) state = .ok result after ↔ state = result ∧ state = after := by
  change EStateM.Result.ok state state = .ok result after ↔ _
  simp

end Action

end RegisterCode
