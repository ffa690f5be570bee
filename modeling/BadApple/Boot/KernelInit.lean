/-
  What `kernelInit` guarantees on all processors (kernel/init.cc).

  1. **Safety** — `boot_laws`: in every state of every run, at most one core is on the temporary stack, each
     core is on the kernel stack that has its own number, every step finds what it needs, and there is at most
     one thread of `kernelMain`, for which all cores are ready.
  2. **The measure** — `step_rank`: every step is a round of the waiting loop or brings a core closer to the
     helper threads.
  3. **Progress** — `idle_of_settled`: where nobody can do anything but wait, all cores are with the helper
     threads.
  4. **Liveness** — `boot_completes`: under a fair scheduler, all cores get there and the thread of
     `kernelMain` is created.
-/
import BadApple.Boot.Cores

namespace BadApple.Smp

open Function (update)
open Tokens (tally)
open Boot (maxProcs)

variable {ids : Nat → Bool} {n c : Nat} {s t : Cores}

/-! ## Safety -/

namespace Inv

/-- Another core on the temporary stack is the one that the first core waits for. -/
theorem wait_of_pick (h : Inv n s) (hpos : 0 < c) (hp : s.pc c = .pick) : s.pc 0 = .wait c := by
  have hlt := h.places.lt_started (show s.pc c ≠ .halted by rw [hp]; simp)
  have hnot : ¬ c < (s.pc 0).waited n := by
    intro hwaited
    have hcounted := h.places.ahead c hwaited
    rw [hp] at hcounted
    cases hcounted
  have hfirst := h.places.first
  cases h0 : s.pc 0 with
  | wait id =>
    rw [h0] at hlt hnot
    have h₁ : c < id + 1 := hlt
    have h₂ : ¬ c < id := hnot
    obtain rfl : c = id := by omega
    rfl
  | halted | count | localInit =>
    rw [h0] at hfirst
    exact hfirst.elim
  | pick | test | globalInit | publish | system | countFirst =>
    rw [h0] at hlt
    have h₁ : c < 1 := hlt
    omega
  | next _ | reset _ | start _ | perCore | pit | segments | arrive | create | idle =>
    rw [h0] at hlt hnot
    exact absurd hlt hnot

/-- **The temporary stack** is used by one core at a time. -/
theorem pick_unique {d : Nat} (h : Inv n s) (hc : s.pc c = .pick) (hd : s.pc d = .pick) : c = d := by
  rcases Nat.eq_zero_or_pos c with rfl | hpos
  · rcases Nat.eq_zero_or_pos d with rfl | hpos'
    · rfl
    · rw [h.wait_of_pick hpos' hd] at hc
      cases hc
  · have hwait := h.wait_of_pick hpos hc
    rcases Nat.eq_zero_or_pos d with rfl | hpos'
    · rw [hwait] at hd
      cases hd
    · rw [h.wait_of_pick hpos' hd] at hwait
      exact (Pc.wait.inj hwait).symm

/-- All cores are ready when all have arrived. -/
theorem ready_of_all (h : Inv n s) (hall : tally Pc.arrived s.pc n = n) (hc : c < n) : s.coreReady c = true := by
  rw [h.ready c]
  by_contra hnot
  have hzero : (s.pc c).arrived = 0 := by
    cases hp : s.pc c <;> rw [hp] at hnot <;> first | rfl | exact absurd rfl hnot
  have hlt := tally_lt arrived_le hc hzero
  omega

theorem ready_of_mains (h : Inv n s) (hpos : 0 < s.mains + tally Pc.creating s.pc n) (hc : c < n) :
    s.coreReady c = true := by
  refine h.ready_of_all ?_ hc
  by_contra hne
  have hmains := h.mains
  rw [if_neg hne] at hmains
  omega

/-- The core that creates the thread is the last. -/
theorem ready_of_create {d : Nat} (h : Inv n s) (hp : s.pc c = .create) (hc : c < n) (hd : d < n) :
    s.coreReady d = true := by
  refine h.ready_of_mains ?_ hd
  have hle := Tokens.le_tally Pc.creating s.pc hc
  rw [hp] at hle
  have hone : Pc.creating .create = 1 := rfl
  omega

/-- **Every step finds what it needs.** -/
theorem needs (h : Inv n s) (hn : 0 < n) (hmax : n ≤ maxProcs) (c : Nat) : Needs n s c := by
  rw [Needs]
  have hglobals := h.globals
  have hsystem := h.system
  have hflag := h.flag
  rcases Nat.eq_zero_or_pos c with rfl | hpos
  · cases hp : s.pc 0 with
    | halted | test | idle => trivial
    | globalInit | publish => rfl
    | pick =>
      refine ⟨Nat.lt_of_lt_of_le hn hmax, fun hdone => ?_⟩
      rw [hflag, hp] at hdone
      cases hdone
    | system => exact ⟨rfl, hglobals.trans (by rw [hp]; rfl)⟩
    | countFirst | next id | wait id => exact ⟨rfl, hsystem.trans (by rw [hp]; rfl)⟩
    | reset id => exact ⟨rfl, hsystem.trans (by rw [hp]; rfl), (h.halted_of_start (Or.inl hp)).1⟩
    | start id => exact ⟨rfl, hsystem.trans (by rw [hp]; rfl), (h.halted_of_start (Or.inr hp)).1⟩
    | segments =>
      exact ⟨Nat.lt_of_lt_of_le hn hmax, hglobals.trans (by rw [hp]; rfl), hsystem.trans (by rw [hp]; rfl)⟩
    | count | localInit | perCore | pit | arrive =>
      exact ⟨hglobals.trans (by rw [hp]; rfl), hsystem.trans (by rw [hp]; rfl)⟩
    | create => exact fun d hd => h.ready_of_create hp hn hd
  · by_cases hhalted : s.pc c = .halted
    · rw [hhalted]
      trivial
    have hlt := h.places.lt_started hhalted
    have hcpu : c < maxProcs := by
      have := h.places.started_le hn
      omega
    obtain ⟨hglobalDone, _, hsystemDone⟩ := h.places.done hpos hlt
    have hother := h.places.others c hpos hlt
    cases hp : s.pc c with
    | halted | test | idle => trivial
    | pick => exact ⟨hcpu, fun _ => hglobals.trans hglobalDone⟩
    | segments => exact ⟨hcpu, hglobals.trans hglobalDone, hsystem.trans hsystemDone⟩
    | globalInit | publish | system | countFirst | next _ | reset _ | start _ | wait _ =>
      rw [hp] at hother
      exact hother.elim
    | count | localInit | perCore | pit | arrive =>
      exact ⟨hglobals.trans hglobalDone, hsystem.trans hsystemDone⟩
    | create =>
      intro d hd
      have := h.places.started_le hn
      exact h.ready_of_create hp (by omega) hd

/-! The steps that not every state allows are taken. -/

/-- There is a kernel stack for every core that picks one. -/
theorem step_pick (h : Inv n s) (ids : Nat → Bool) (hn : 0 < n) (hmax : n ≤ maxProcs) (hp : s.pc c = .pick) :
    ∃ k, step ids n c s = some { s.goto c .test with stack := update s.stack c (some k) } := by
  have hneeds := h.needs hn hmax c
  rw [Needs, hp] at hneeds
  have hcpu : (if s.smpInitDone = true then c else 0) < maxProcs := by
    by_cases hdone : s.smpInitDone = true
    · rw [if_pos hdone]
      exact hneeds.1
    · rw [if_neg hdone]
      decide
  refine ⟨if s.smpInitDone = true then c else 0, ?_⟩
  rw [step, hp]
  exact if_pos hcpu

/-- `Pit::init` does not panic. -/
theorem step_pit (h : Inv n s) (hn : 0 < n) (hmax : n ≤ maxProcs) (hp : s.pc c = .pit) :
    step ids n c s = some (s.goto c .segments) := by
  have hneeds := h.needs hn hmax c
  rw [Needs, hp] at hneeds
  rw [step, hp]
  exact if_pos hneeds.2

/-- `ltr` does not fault. -/
theorem step_segments (h : Inv n s) (hn : 0 < n) (hmax : n ≤ maxProcs) (hp : s.pc c = .segments) :
    step ids n c s = some { s.goto c .arrive with coreReady := update s.coreReady c true } := by
  have hneeds := h.needs hn hmax c
  rw [Needs, hp] at hneeds
  rw [step, hp]
  exact if_pos hneeds.1

end Inv

/-- **Starting the processors is safe** when there are at most `MAX_PROCS` and their APIC ids are the numbers
    from 0 on: in every state of every run, in whatever order the cores take their steps, at most one core is
    on the temporary stack; a core that has left it is on the kernel stack with its own number, which is below
    the number of processors; every step finds set up what it needs; and the thread of `kernelMain` is created
    once at most, and when it is, every core is ready. -/
theorem boot_laws (apicIds : Nat → Bool) (totalProcs : Nat) (s : Cores) (hn : 0 < totalProcs)
    (hmax : totalProcs ≤ maxProcs) (hids : ∀ c, c < totalProcs → apicIds c = true)
    (h : Reached apicIds totalProcs s) :
    (∀ c d, s.pc c = .pick → s.pc d = .pick → c = d) ∧
    (∀ c k, s.stack c = some k → k = c ∧ c < totalProcs) ∧
    (∀ c, Needs totalProcs s c) ∧
    s.mains ≤ 1 ∧ (s.mains = 1 → ∀ c, c < totalProcs → s.coreReady c = true) := by
  have hinv := h.inv hn hids
  refine ⟨fun c d hc hd => hinv.pick_unique hc hd, ?_, hinv.needs hn hmax, ?_, ?_⟩
  · intro c k hk
    rw [hinv.picked c] at hk
    by_cases hon : (s.pc c).onStack = true
    · rw [if_pos hon] at hk
      have hne : s.pc c ≠ .halted := by
        intro hhalted
        rw [hhalted] at hon
        cases hon
      have := hinv.places.lt_started hne
      have := hinv.places.started_le hn
      exact ⟨(Option.some.inj hk).symm, by omega⟩
    · rw [if_neg hon] at hk
      cases hk
  · have hmains := hinv.mains
    by_cases hall : tally Pc.arrived s.pc totalProcs = totalProcs
    · rw [if_pos hall] at hmains
      omega
    · rw [if_neg hall] at hmains
      omega
  · intro hone c hc
    exact hinv.ready_of_mains (by omega) hc

/-- Two cores: the second sets itself up while the first arrives, and is the last. -/
theorem boot_laws_two : ∃ s, Reached (fun c => decide (c < 2)) 2 s ∧ s.mains = 1 ∧ s.coreReady 0 = true ∧ s.coreReady 1 = true := by
  let turns := [0, 0, 0, 0, 0, 0, 0, 0, 0, 0, 1, 1, 1, 0, 0, 0, 0, 0, 0, 1, 1, 1, 1, 1, 1]
  have hruns : (turns.foldlM (fun s c => step (fun c => decide (c < 2)) 2 c s) start).map Cores.mains =
      some 1 := by decide +kernel
  obtain ⟨s, hs, hmains⟩ := Option.map_eq_some_iff.1 hruns
  have hreached : Reached (fun c => decide (c < 2)) 2 s := Runs.Reached.foldlM (Runs.Reached.start rfl) hs
  have hready := (boot_laws _ 2 s (by decide) (by decide) (fun c hc => decide_eq_true hc) hreached).2.2.2.2 hmains
  exact ⟨s, hreached, hmains, hready 0 (by decide), hready 1 (by decide)⟩

/-! ## The measure -/

/-- A core that comes closer lowers the measure. -/
theorem rank_update {pc : Nat → Pc} {q : Pc} (hc : c < n) (hlt : q.rank n < (pc c).rank n) :
    tally (Pc.rank n) (update pc c q) n < tally (Pc.rank n) pc n := by
  have := Tokens.tally_update (Pc.rank n) pc q hc
  omega

/-- **Every step** is a round of the waiting loop, or lowers the measure. -/
theorem Inv.step_rank (h : Inv n s) (hn : 0 < n) (hmax : n ≤ maxProcs) (hids : ∀ c, c < n → ids c = true)
    (hstep : step ids n c s = some t) :
    (t = s ∧ ∃ id, s.pc c = .wait id ∧ s.running ≤ id) ∨
      tally (Pc.rank n) t.pc n < tally (Pc.rank n) s.pc n := by
  by_cases hhalted : s.pc c = .halted
  · rw [step, hhalted] at hstep
    cases hstep
  have hc : c < n := by
    have := h.places.lt_started hhalted
    have := h.places.started_le hn
    omega
  -- what most steps do
  have hcloser : ∀ {p : Pc} (q : Pc), s.pc c = p → t.pc = update s.pc c q → q.rank n < p.rank n →
      (t = s ∧ ∃ id, p = .wait id ∧ s.running ≤ id) ∨
        tally (Pc.rank n) t.pc n < tally (Pc.rank n) s.pc n := by
    rintro p q rfl hpc hlt
    rw [hpc]
    exact Or.inr (rank_update hc hlt)
  cases hp : s.pc c with
  | halted => exact absurd hp hhalted
  | idle =>
    rw [step, hp] at hstep
    cases hstep
  | pick =>
    obtain ⟨k, hpick⟩ := h.step_pick ids hn hmax hp
    obtain rfl := Option.some.inj (hpick.symm.trans hstep)
    exact hcloser .test hp rfl (by simp only [Pc.rank]; omega)
  | pit =>
    obtain rfl := Option.some.inj ((h.step_pit hn hmax hp).symm.trans hstep)
    exact hcloser .segments hp rfl (by simp only [Pc.rank]; omega)
  | segments =>
    obtain rfl := Option.some.inj ((h.step_segments hn hmax hp).symm.trans hstep)
    exact hcloser .arrive hp rfl (by simp only [Pc.rank]; omega)
  | globalInit | publish | system | countFirst | count | localInit | perCore | create =>
    rw [step, hp] at hstep
    obtain rfl := Option.some.inj hstep
    exact hcloser _ hp rfl (by simp only [Pc.rank]; omega)
  | test =>
    rw [step, hp] at hstep
    obtain rfl := Option.some.inj hstep
    refine hcloser _ hp rfl ?_
    by_cases hdone : s.smpInitDone = true
    · rw [if_pos hdone]
      simp only [Pc.rank]
      omega
    · rw [if_neg hdone]
      simp only [Pc.rank]
      omega
  | arrive =>
    rw [step, hp] at hstep
    obtain rfl := Option.some.inj hstep
    refine hcloser _ hp rfl ?_
    by_cases hlast : s.howManyAreHere + 1 = n
    · rw [if_pos hlast]
      simp only [Pc.rank]
      omega
    · rw [if_neg hlast]
      simp only [Pc.rank]
      omega
  | next id =>
    rw [step, hp] at hstep
    obtain rfl := Option.some.inj hstep
    refine hcloser _ hp rfl ?_
    by_cases hlt : id < n
    · rw [if_pos hlt]
      simp only [Pc.rank]
      omega
    · rw [if_neg hlt]
      simp only [Pc.rank]
      omega
  | reset id =>
    have hneeds := h.needs hn hmax c
    rw [Needs, hp] at hneeds
    have hsame : s.goto id .halted = s := by rw [Cores.goto, ← hneeds.2.2, Function.update_eq_self]
    rw [step, hp] at hstep
    simp only at hstep
    rw [hsame] at hstep
    obtain rfl := Option.some.inj hstep
    exact hcloser (.start id) hp rfl (by simp only [Pc.rank]; omega)
  | start id =>
    have hneeds := h.needs hn hmax c
    rw [Needs, hp] at hneeds
    obtain ⟨rfl, _, hid⟩ := hneeds
    obtain ⟨_, hpos, hlt⟩ := h.halted_of_start (Or.inr hp)
    rw [step, hp] at hstep
    simp only at hstep
    rw [if_pos ⟨hids id hlt, hid⟩] at hstep
    obtain rfl := Option.some.inj hstep
    have h₁ : tally (Pc.rank n) (update s.pc id .pick) n < tally (Pc.rank n) s.pc n := by
      refine rank_update hlt ?_
      rw [hid]
      simp only [Pc.rank]
      omega
    have h₂ : tally (Pc.rank n) (update (update s.pc id .pick) 0 (.wait id)) n <
        tally (Pc.rank n) (update s.pc id .pick) n := by
      refine rank_update hc ?_
      rw [Function.update_of_ne (by omega), hp]
      simp only [Pc.rank]
      omega
    exact Or.inr (Nat.lt_trans h₂ h₁)
  | wait id =>
    have hneeds := h.needs hn hmax c
    rw [Needs, hp] at hneeds
    rw [step, hp] at hstep
    obtain rfl := Option.some.inj hstep
    by_cases hle : s.running ≤ id
    · rw [if_pos hle]
      exact Or.inl ⟨rfl, id, rfl, hle⟩
    · obtain ⟨rfl, _⟩ := hneeds
      have hfirst := h.places.first
      rw [hp] at hfirst
      obtain ⟨_, hlt⟩ := hfirst
      rw [if_neg hle] at hcloser ⊢
      exact hcloser (.next (id + 1)) hp rfl (by simp only [Pc.rank]; omega)

/-! ## Progress -/

/-- A core that takes no step is halted or with the helper threads. -/
theorem Inv.stuck (h : Inv n s) (hn : 0 < n) (hmax : n ≤ maxProcs) (hstep : step ids n c s = none) :
    s.pc c = .halted ∨ s.pc c = .idle := by
  cases hp : s.pc c with
  | halted => exact Or.inl rfl
  | idle => exact Or.inr rfl
  | pick =>
    obtain ⟨k, hpick⟩ := h.step_pick ids hn hmax hp
    cases hpick.symm.trans hstep
  | pit => cases (h.step_pit hn hmax hp).symm.trans hstep
  | segments => cases (h.step_segments hn hmax hp).symm.trans hstep
  | test | globalInit | publish | system | countFirst | next id | reset id | start id | wait id | count
  | localInit | perCore | arrive | create =>
    rw [step, hp] at hstep
    cases hstep

/-- The waiting loop goes on when all other cores that have been started are counted. -/
theorem Inv.running_of_counted {id : Nat} (h : Inv n s) (hp : s.pc 0 = .wait id)
    (hothers : ∀ c, 0 < c → c < id + 1 → (s.pc c).counted = 1) : s.running = id + 1 := by
  have hfirst := h.places.first
  have hhalted := h.places.halted
  rw [hp] at hfirst hhalted
  have hall : ∀ c, c < id + 1 → (s.pc c).counted = 1 := by
    intro c hc
    rcases Nat.eq_zero_or_pos c with rfl | hpos
    · rw [hp]
      rfl
    · exact hothers c hpos hc
  rw [h.running, tally_halted rfl hhalted (show id + 1 ≤ n from hfirst.2)]
  exact tally_eq hall

/-- **Progress**: where no core can do anything but wait, all cores are with the helper threads, are ready,
    and the thread of `kernelMain` has been created. -/
theorem Inv.idle_of_settled (h : Inv n s) (hn : 0 < n) (hmax : n ≤ maxProcs)
    (hids : ∀ c, c < n → ids c = true)
    (hsettled : ∀ c, c < n → ∀ t, step ids n c s = some t → t = s) :
    s.mains = 1 ∧ ∀ c, c < n → s.pc c = .idle ∧ s.coreReady c = true := by
  -- where a core can be that does nothing
  have hplace : ∀ c, c < n → s.pc c = .halted ∨ s.pc c = .idle ∨ ∃ id, s.pc c = .wait id ∧ s.running ≤ id := by
    intro c hc
    cases hstep : step ids n c s with
    | none =>
      rcases h.stuck hn hmax hstep with hp | hp
      · exact Or.inl hp
      · exact Or.inr (Or.inl hp)
    | some t =>
      rcases h.step_rank hn hmax hids hstep with ⟨_, hwait⟩ | hlt
      · exact Or.inr (Or.inr hwait)
      · rw [hsettled c hc t hstep] at hlt
        exact absurd hlt (Nat.lt_irrefl _)
  have hothers : ∀ c, 0 < c → c < (s.pc 0).started n → s.pc c = .idle := by
    intro c hpos hlt
    have hother := h.places.others c hpos hlt
    have := h.places.started_le hn
    rcases hplace c (by omega) with hp | hp | ⟨id, hp, _⟩
    · rw [hp] at hother
      exact hother.elim
    · exact hp
    · rw [hp] at hother
      exact hother.elim
  have hfirst : s.pc 0 = .idle := by
    have hcan := h.places.first
    rcases hplace 0 hn with hp | hp | ⟨id, hp, hrunning⟩
    · rw [hp] at hcan
      exact hcan.elim
    · exact hp
    · -- the cores up to the one that is waited for are counted, so that the loop goes on
      exfalso
      rw [hp] at hothers
      have := h.running_of_counted hp fun c hpos hc => by
        rw [hothers c hpos hc]
        rfl
      omega
  have hidle : ∀ c, c < n → s.pc c = .idle := by
    intro c hc
    rcases Nat.eq_zero_or_pos c with rfl | hpos
    · exact hfirst
    · refine hothers c hpos ?_
      rw [hfirst]
      exact hc
  refine ⟨?_, fun c hc => ⟨hidle c hc, ?_⟩⟩
  · have hmains := h.mains
    have hcreating : tally Pc.creating s.pc n = 0 := Tokens.tally_eq_zero fun c hc => by
      rw [hidle c hc]
      rfl
    have harrived : tally Pc.arrived s.pc n = n := tally_eq fun c hc => by
      rw [hidle c hc]
      rfl
    rw [hcreating, harrived, if_pos rfl] at hmains
    exact hmains
  · rw [h.ready c, hidle c hc]
    rfl

/-! ## Liveness -/

/-- **Starting the processors completes** when there are at most `MAX_PROCS` and their APIC ids are the
    numbers from 0 on: under every scheduler that lets each processor take a step again and again, from some
    time on all processors are ready and with the helper threads, and the thread of `kernelMain` has been
    created. -/
theorem boot_completes (apicIds : Nat → Bool) (totalProcs : Nat) (sched : Nat → Nat) (hn : 0 < totalProcs)
    (hmax : totalProcs ≤ maxProcs) (hids : ∀ c, c < totalProcs → apicIds c = true)
    (hfair : Fair.FairTo sched fun c => c < totalProcs) :
    ∃ K, ∀ k, K ≤ k → (Fair.states (step apicIds totalProcs) sched start k).mains = 1 ∧
      ∀ c, c < totalProcs → (Fair.states (step apicIds totalProcs) sched start k).pc c = .idle ∧
        (Fair.states (step apicIds totalProcs) sched start k).coreReady c = true := by
  have hinv : ∀ k, Inv totalProcs (Fair.states (step apicIds totalProcs) sched start k) := fun k =>
    Reached.inv hn hids (Fair.states_reached (step apicIds totalProcs) sched start k)
  have hdown : ∀ k c t, step apicIds totalProcs c (Fair.states (step apicIds totalProcs) sched start k) = some t →
      t = Fair.states (step apicIds totalProcs) sched start k ∨
        tally (Pc.rank totalProcs) t.pc totalProcs <
          tally (Pc.rank totalProcs) (Fair.states (step apicIds totalProcs) sched start k).pc totalProcs := by
    intro k c t hstep
    rcases (hinv k).step_rank hn hmax hids hstep with ⟨hstays, _⟩ | hlt
    · exact Or.inl hstays
    · exact Or.inr hlt
  obtain ⟨K, hsame, hsettled⟩ := Fair.settles_fair hfair hdown
  refine ⟨K, fun k hk => ?_⟩
  rw [hsame k hk]
  exact (hinv K).idle_of_settled hn hmax hids hsettled

theorem boot_completes_two : ∃ k, (Fair.states (step (fun c => decide (c < 2)) 2) (fun k => k % 2) start k).mains = 1 := by
  have hfair : Fair.FairTo (fun k => k % 2) fun c => c < 2 := by
    intro c hc k
    refine ⟨2 * k + c, by omega, ?_⟩
    show (2 * k + c) % 2 = c
    omega
  obtain ⟨K, hK⟩ := boot_completes _ 2 (fun k => k % 2) (by decide) (by decide) (fun c hc => decide_eq_true hc)
    hfair
  exact ⟨K, (hK K (Nat.le_refl K)).1⟩

end BadApple.Smp
