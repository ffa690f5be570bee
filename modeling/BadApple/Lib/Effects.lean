/-
  Programs that touch things: a state, a log of what was touched, and a result or a reason to have stopped.

  `Spec P p s Q E` says of the run of `p` from `s` that everything it touches satisfies `P`, that `Q` holds if
  it comes back, and `E` if it stops.  There is one rule for each way to put programs together; `Touches`
  says that something is touched after all.  `Exactly P p s c Q` says when `p` comes back: if and only if `c`
  holds.  `limited` is a program some of whose touches cannot be carried out.
-/

namespace Effects

variable {ε ρ σ α β : Type}

/-- A run: what it touched, what it came to, and the state it left. -/
structure Run (ε ρ σ α : Type) where
  log : List ε
  result : Except ρ α
  state : σ

/-- A program, from a state. -/
def Prog (ε ρ σ α : Type) : Type := σ → Run ε ρ σ α

/-- What follows a run goes on in its state, if it came back. -/
def Run.andThen (r : Run ε ρ σ α) (f : α → Prog ε ρ σ β) : Run ε ρ σ β :=
  match r.result with
  | .ok a => ⟨r.log ++ (f a r.state).log, (f a r.state).result, (f a r.state).state⟩
  | .error e => ⟨r.log, .error e, r.state⟩

instance : Monad (Prog ε ρ σ) where
  pure a := fun s => ⟨[], .ok a, s⟩
  bind p f := fun s => (p s).andThen f

/-- Touch something. -/
def touch (e : ε) : Prog ε ρ σ Unit := fun s => ⟨[e], .ok (), s⟩

/-- Read the state. -/
def getState : Prog ε ρ σ σ := fun s => ⟨[], .ok s, s⟩

/-- Change the state. -/
def modify (f : σ → σ) : Prog ε ρ σ Unit := fun s => ⟨[], .ok (), f s⟩

/-- Stop. -/
def stop (e : ρ) : Prog ε ρ σ α := fun s => ⟨[], .error e, s⟩

/-- A program that stops with `e` at the first touch that is not `allowed`; the state it leaves then is no
    matter. -/
def limited (allowed : ε → Bool) (e : ρ) (p : Prog ε ρ σ α) : Prog ε ρ σ α := fun s =>
  if (p s).log.all allowed then p s else ⟨(p s).log.takeWhile allowed, .error e, (p s).state⟩

variable {P P' : ε → Prop} {p : Prog ε ρ σ α} {f : α → Prog ε ρ σ β} {s s' : σ} {Q Q' : α → σ → Prop}
  {R : β → σ → Prop} {E E' : ρ → σ → Prop} {x : ε}

/-! ## Runs -/

@[simp] theorem pure_run (a : α) (s : σ) : (pure a : Prog ε ρ σ α) s = ⟨[], .ok a, s⟩ := rfl

@[simp] theorem bind_run (p : Prog ε ρ σ α) (f : α → Prog ε ρ σ β) (s : σ) :
    (p >>= f) s = (p s).andThen f := rfl

@[simp] theorem touch_run (e : ε) (s : σ) : (touch e : Prog ε ρ σ Unit) s = ⟨[e], .ok (), s⟩ := rfl

@[simp] theorem getState_run (s : σ) : (getState : Prog ε ρ σ σ) s = ⟨[], .ok s, s⟩ := rfl

@[simp] theorem modify_run (f : σ → σ) (s : σ) : (modify f : Prog ε ρ σ Unit) s = ⟨[], .ok (), f s⟩ := rfl

@[simp] theorem stop_run (e : ρ) (s : σ) : (stop e : Prog ε ρ σ α) s = ⟨[], .error e, s⟩ := rfl

@[simp] theorem andThen_ok (l : List ε) (a : α) (s : σ) (f : α → Prog ε ρ σ β) :
    (Run.mk l (.ok a) s : Run ε ρ σ α).andThen f = ⟨l ++ (f a s).log, (f a s).result, (f a s).state⟩ := rfl

@[simp] theorem andThen_error (l : List ε) (e : ρ) (s : σ) (f : α → Prog ε ρ σ β) :
    (Run.mk l (.error e) s : Run ε ρ σ α).andThen f = ⟨l, .error e, s⟩ := rfl

/-! ## Specifications -/

/-- What a run touches, what holds if it comes back, and what if it stops. -/
structure Spec (P : ε → Prop) (p : Prog ε ρ σ α) (s : σ) (Q : α → σ → Prop) (E : ρ → σ → Prop) : Prop where
  log : ∀ x ∈ (p s).log, P x
  ok : ∀ a, (p s).result = .ok a → Q a (p s).state
  error : ∀ e, (p s).result = .error e → E e (p s).state

theorem Spec.mono (h : Spec P p s Q E) (hP : ∀ x, P x → P' x) (hQ : ∀ a s, Q a s → Q' a s)
    (hE : ∀ e s, E e s → E' e s) : Spec P' p s Q' E' :=
  ⟨fun x hx => hP x (h.log x hx), fun a ha => hQ a _ (h.ok a ha), fun e he => hE e _ (h.error e he)⟩

/-- Less is known if it stops. -/
theorem Spec.mono_error (h : Spec P p s Q E) (hE : ∀ e s, E e s → E' e s) : Spec P p s Q E' :=
  h.mono (fun _ hx => hx) (fun _ _ ha => ha) hE

theorem Spec.pure {a : α} (h : Q a s) : Spec P (pure a : Prog ε ρ σ α) s Q E := by
  refine ⟨by simp, ?_, by simp⟩
  intro b hb
  cases hb
  exact h

theorem Spec.stop {e : ρ} (h : E e s) : Spec P (stop e : Prog ε ρ σ α) s Q E := by
  refine ⟨by simp, by simp, ?_⟩
  intro b hb
  cases hb
  exact h

/-- **One after the other.** -/
theorem Spec.bind (hp : Spec P p s Q E) (hf : ∀ a s', Q a s' → Spec P (f a) s' R E) :
    Spec P (p >>= f) s R E := by
  cases hr : (p s).result with
  | ok a =>
    have hrun : (p >>= f) s = ⟨(p s).log ++ (f a (p s).state).log, (f a (p s).state).result,
        (f a (p s).state).state⟩ := by
      rw [bind_run, Run.andThen, hr]
    have hnext := hf a _ (hp.ok a hr)
    refine ⟨?_, ?_, ?_⟩
    · intro x hx
      rw [hrun] at hx
      rcases List.mem_append.1 hx with hx | hx
      · exact hp.log x hx
      · exact hnext.log x hx
    · rw [hrun]
      exact hnext.ok
    · rw [hrun]
      exact hnext.error
  | error e =>
    have hrun : (p >>= f) s = ⟨(p s).log, .error e, (p s).state⟩ := by
      rw [bind_run, Run.andThen, hr]
    refine ⟨?_, ?_, ?_⟩
    · rw [hrun]
      exact hp.log
    · rw [hrun]
      intro b hb
      cases hb
    · rw [hrun]
      intro e' he'
      cases he'
      exact hp.error e hr

theorem Spec.touch {Q : Unit → σ → Prop} (hx : P x) (h : Q () s) :
    Spec P (touch x : Prog ε ρ σ Unit) s Q E := by
  refine ⟨?_, fun _ _ => h, by simp⟩
  intro y hy
  rw [List.mem_singleton.1 hy]
  exact hx

theorem Spec.getState {Q : σ → σ → Prop} (h : Q s s) : Spec P (getState : Prog ε ρ σ σ) s Q E := by
  refine ⟨by simp, ?_, by simp⟩
  intro a ha
  cases ha
  exact h

theorem Spec.modify {f : σ → σ} {Q : Unit → σ → Prop} (h : Q () (f s)) :
    Spec P (modify f : Prog ε ρ σ Unit) s Q E :=
  ⟨by simp, fun _ _ => h, by simp⟩

/-- Only the run from `s` matters. -/
theorem Spec.of_eq {p' : Prog ε ρ σ α} (heq : p s = p' s) (h : Spec P p' s Q E) : Spec P p s Q E := by
  refine ⟨?_, ?_, ?_⟩
  · rw [heq]
    exact h.log
  · rw [heq]
    exact h.ok
  · rw [heq]
    exact h.error

/-- What two specifications say holds together. -/
theorem Spec.and (h : Spec P p s Q E) (h' : Spec P' p s Q' E') :
    Spec (fun x => P x ∧ P' x) p s (fun a s => Q a s ∧ Q' a s) fun e s => E e s ∧ E' e s :=
  ⟨fun x hx => ⟨h.log x hx, h'.log x hx⟩, fun a ha => ⟨h.ok a ha, h'.ok a ha⟩,
    fun e he => ⟨h.error e he, h'.error e he⟩⟩

/-- Nothing said. -/
theorem Spec.any : Spec (fun _ => True) p s (fun _ _ => True) fun _ _ => True :=
  ⟨fun _ _ => trivial, fun _ _ => trivial, fun _ _ => trivial⟩

/-- What cannot stop comes back. -/
theorem Spec.returns (h : Spec P p s Q fun _ _ => False) : ∃ a, (p s).result = .ok a ∧ Q a (p s).state := by
  cases hr : (p s).result with
  | ok a => exact ⟨a, rfl, h.ok a hr⟩
  | error e => exact (h.error e hr).elim

/-! ## What is touched after all -/

/-- The run of `p` from `s` touches `x`. -/
def Touches (p : Prog ε ρ σ α) (s : σ) (x : ε) : Prop := x ∈ (p s).log

theorem Touches.left (h : Touches p s x) : Touches (p >>= f) s x := by
  rw [Touches, bind_run, Run.andThen]
  cases (p s).result with
  | ok a => exact List.mem_append_left _ h
  | error e => exact h

theorem Touches.right {a : α} (hp : (p s).result = .ok a) (hs : (p s).state = s') (h : Touches (f a) s' x) :
    Touches (p >>= f) s x := by
  rw [Touches, bind_run, Run.andThen, hp, hs]
  exact List.mem_append_right _ h

theorem Touches.next {y : ε} {f : Unit → Prog ε ρ σ β} (h : Touches (f ()) s x) :
    Touches (touch y >>= f) s x :=
  Touches.right rfl rfl h

theorem Touches.getState {f : σ → Prog ε ρ σ β} (h : Touches (f s) s x) : Touches (getState >>= f) s x :=
  Touches.right rfl rfl h

theorem Touches.modify {g : σ → σ} {f : Unit → Prog ε ρ σ β} (h : Touches (f ()) (g s) x) :
    Touches (modify g >>= f) s x :=
  Touches.right rfl rfl h

/-- A run that touches something else than `P` allows has no specification with `P`. -/
theorem Touches.not_log (h : Touches p s x) (hx : ¬ P x) : ¬ ∀ y ∈ (p s).log, P y :=
  fun hall => hx (hall x h)

/-! ## When a run comes back -/

/-- The run of `p` from `s` comes back, and all that it touches satisfies `P`. -/
def Ends (P : ε → Prop) (p : Prog ε ρ σ α) (s : σ) : Prop :=
  (∃ a, (p s).result = .ok a) ∧ ∀ x ∈ (p s).log, P x

/-- **It does so exactly if `c`**, and then `Q` holds. -/
structure Exactly (P : ε → Prop) (p : Prog ε ρ σ α) (s : σ) (c : Prop) (Q : α → σ → Prop) : Prop where
  ends : Ends P p s ↔ c
  ok : ∀ a, Ends P p s → (p s).result = .ok a → Q a (p s).state

/-- First one, then the other. -/
theorem ends_bind :
    Ends P (p >>= f) s ↔ Ends P p s ∧ ∀ a, (p s).result = .ok a → Ends P (f a) (p s).state := by
  unfold Ends
  rw [bind_run, Run.andThen]
  cases (p s).result with
  | ok a =>
    constructor
    · rintro ⟨⟨b, hb⟩, hlog⟩
      refine ⟨⟨⟨a, rfl⟩, fun x hx => hlog x (List.mem_append_left _ hx)⟩, ?_⟩
      intro a' ha'
      cases ha'
      exact ⟨⟨b, hb⟩, fun x hx => hlog x (List.mem_append_right _ hx)⟩
    · rintro ⟨⟨-, hlog⟩, hnext⟩
      obtain ⟨hb, hlog'⟩ := hnext a rfl
      refine ⟨hb, fun x hx => ?_⟩
      rcases List.mem_append.1 hx with hx | hx
      · exact hlog x hx
      · exact hlog' x hx
  | error e =>
    constructor
    · rintro ⟨⟨b, hb⟩, -⟩
      cases hb
    · rintro ⟨⟨⟨b, hb⟩, -⟩, -⟩
      cases hb

variable {c d : Prop}

theorem Exactly.congr (h : Exactly P p s c Q) (hcd : c ↔ d) : Exactly P p s d Q := ⟨h.ends.trans hcd, h.ok⟩

/-- Only the run matters. -/
theorem Exactly.of_eq {p' : Prog ε ρ σ α} (heq : p s = p' s) (h : Exactly P p' s c Q) : Exactly P p s c Q := by
  have hends : Ends P p s ↔ Ends P p' s := by
    unfold Ends
    rw [heq]
  refine ⟨hends.trans h.ends, fun a ha hresult => ?_⟩
  rw [heq] at hresult ⊢
  exact h.ok a (hends.1 ha) hresult

theorem Exactly.mono (h : Exactly P p s c Q) (hQ : ∀ a s, Q a s → Q' a s) : Exactly P p s c Q' :=
  ⟨h.ends, fun a hends ha => hQ a _ (h.ok a hends ha)⟩

theorem Exactly.pure {a : α} (h : Q a s) : Exactly P (pure a : Prog ε ρ σ α) s True Q := by
  refine ⟨iff_of_true ⟨⟨a, rfl⟩, by simp⟩ trivial, ?_⟩
  intro b _ hb
  cases hb
  exact h

theorem Exactly.stop {e : ρ} : Exactly P (stop e : Prog ε ρ σ α) s False Q := by
  have hnot : ¬ Ends P (Effects.stop e : Prog ε ρ σ α) s := by
    rintro ⟨⟨a, ha⟩, -⟩
    cases ha
  exact ⟨iff_of_false hnot id, fun a hends => absurd hends hnot⟩

theorem Exactly.touch {Q : Unit → σ → Prop} (h : Q () s) :
    Exactly P (touch x : Prog ε ρ σ Unit) s (P x) Q := by
  refine ⟨⟨fun hends => hends.2 x (List.mem_singleton_self x), fun hx => ⟨⟨(), rfl⟩, ?_⟩⟩, fun _ _ _ => h⟩
  intro y hy
  rw [List.mem_singleton.1 hy]
  exact hx

theorem Exactly.getState {Q : σ → σ → Prop} (h : Q s s) :
    Exactly P (getState : Prog ε ρ σ σ) s True Q := by
  refine ⟨iff_of_true ⟨⟨s, rfl⟩, by simp⟩ trivial, ?_⟩
  intro a _ ha
  cases ha
  exact h

theorem Exactly.modify {g : σ → σ} {Q : Unit → σ → Prop} (h : Q () (g s)) :
    Exactly P (modify g : Prog ε ρ σ Unit) s True Q :=
  ⟨iff_of_true ⟨⟨(), rfl⟩, by simp⟩ trivial, fun _ _ _ => h⟩

/-- **One after the other.** -/
theorem Exactly.bind (hp : Exactly P p s c Q) (hf : ∀ a s', Q a s' → Exactly P (f a) s' d R) :
    Exactly P (p >>= f) s (c ∧ d) R := by
  constructor
  · rw [ends_bind, ← hp.ends]
    constructor
    · rintro ⟨hends, hnext⟩
      obtain ⟨a, ha⟩ := hends.1
      exact ⟨hends, (hf a _ (hp.ok a hends ha)).ends.1 (hnext a ha)⟩
    · rintro ⟨hends, hd⟩
      exact ⟨hends, fun a ha => (hf a _ (hp.ok a hends ha)).ends.2 hd⟩
  · intro b hends hb
    obtain ⟨hends, hnext⟩ := ends_bind.1 hends
    obtain ⟨a, ha⟩ := hends.1
    have hstep : (p >>= f) s = ⟨(p s).log ++ (f a (p s).state).log, (f a (p s).state).result,
        (f a (p s).state).state⟩ := by
      rw [bind_run, Run.andThen, ha]
    rw [hstep] at hb ⊢
    exact (hf a _ (hp.ok a hends ha)).ok b (hnext a ha) hb

/-! ## Limits -/

variable {allowed : ε → Bool} {e : ρ}

/-- What comes back within limits has not met them. -/
theorem limited_of_ok {a : α} (h : (limited allowed e p s).result = .ok a) : limited allowed e p s = p s := by
  unfold limited at h ⊢
  by_cases hall : (p s).log.all allowed = true
  · rw [if_pos hall]
  · rw [if_neg hall] at h
    cases h

/-- **It comes back exactly if all that the program touches is allowed**, and the program does. -/
theorem ends_limited :
    Ends P (limited allowed e p) s ↔ Ends (fun x => P x ∧ allowed x = true) p s := by
  constructor
  · rintro ⟨⟨a, ha⟩, hlog⟩
    have hsame := limited_of_ok ha
    have hall : (p s).log.all allowed = true := by
      cases hall : (p s).log.all allowed with
      | true => rfl
      | false =>
        unfold limited at ha
        rw [hall, if_neg Bool.false_ne_true] at ha
        cases ha
    rw [hsame] at ha hlog
    exact ⟨⟨a, ha⟩, fun x hx => ⟨hlog x hx, List.all_eq_true.1 hall x hx⟩⟩
  · rintro ⟨⟨a, ha⟩, hlog⟩
    have hsame : limited allowed e p s = p s := if_pos (List.all_eq_true.2 fun x hx => (hlog x hx).2)
    unfold Ends
    rw [hsame]
    exact ⟨⟨a, ha⟩, fun x hx => (hlog x hx).1⟩

theorem Exactly.limited (h : Exactly (fun x => P x ∧ allowed x = true) p s c Q) :
    Exactly P (limited allowed e p) s c Q := by
  refine ⟨ends_limited.trans h.ends, fun a hends ha => ?_⟩
  have hsame := limited_of_ok ha
  rw [hsame] at ha ⊢
  exact h.ok a (ends_limited.1 hends) ha

end Effects
