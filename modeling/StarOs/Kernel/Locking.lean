import Mathlib.Data.Finset.Max
import StarOs.Kernel.Sync

/-! What the lock gives to a machine of many cores, over every interleaving of their steps: one
guard of a lock at a time, no interrupt while one is held, the interrupt flag as it was before,
the order of the tickets, and no deadlock where the locks are taken in an order. -/

namespace StarOs.Kernel.Sync

open Library (Run)

variable {ι κ τ : Type} {δ : κ → Type} [DecidableEq ι] [DecidableEq κ] [DecidableEq τ] [Fintype ι]
  {s s' : Machine ι κ τ δ} {a : Act ι κ τ δ} {c d : ι} {l : κ} {t u : BitVec 32}

/-- `c` has called `lock` and spins. -/
def Machine.queue (s : Machine ι κ τ δ) (c : ι) (l : κ) : Machine ι κ τ δ :=
  (s.setLock l { s.locks l with next := (s.locks l).next + 1 }).setNow c
    { s.now c with pc := .spin l (s.now c).enabled (s.locks l).next, enabled := false }

omit [DecidableEq κ] [DecidableEq τ] [Fintype ι] in
@[simp] theorem setNow_setNow (v w : Level κ) : (s.setNow c v).setNow c w = s.setNow c w := by
  simp [Machine.setNow, Machine.setCore, Machine.interrupted]

omit [DecidableEq τ] [Fintype ι] in
theorem setLock_setNow (v : Level κ) (x : SpinLock (δ l)) :
    (s.setNow c v).setLock l x = (s.setLock l x).setNow c v := rfl

omit [Fintype ι] in
/-- The way from the call to the line, where nothing comes between. -/
theorem run_queue (l : κ) (hpc : (s.now c).pc = .body) :
    Run Step (fun _ => True) s (s.queue c l) := by
  have hsave : Run Step (fun _ => True) s _ := .single trivial (.lock c l hpc)
  have hread := hsave.tail trivial (.interruptsEnabled c l (by rw [Machine.setNow_now_self]))
  have hcli := hread.tail trivial (.disableInterrupts c l (s.now c).enabled (by
    rw [Machine.setNow_now_self, Machine.setNow_now_self]))
  have htake := hcli.tail trivial (.fetchAdd c l (s.now c).enabled (by
    rw [Machine.setNow_now_self]))
  convert htake using 1
  simp [Machine.queue, setLock_setNow]

omit [DecidableEq ι] [DecidableEq τ] [Fintype ι] in
theorem holds_iff {v : Level κ} : v.holds l = true ↔ ∃ g ∈ v.guards, g.lock = l := by
  simp [Level.holds]

omit [DecidableEq ι] [DecidableEq τ] [Fintype ι] in
theorem Level.Ok.of_holds {v : Level κ} (h : v.Ok) (hl : v.holds l = true) : v.enabled = false := by
  obtain ⟨g, hg, -⟩ := holds_iff.mp hl
  exact h.masked (List.ne_nil_of_mem hg)

omit [DecidableEq ι] [DecidableEq τ] [Fintype ι] in
theorem Level.Ok.of_waits {v : Level κ} (h : v.Ok) (hl : v.waits l = some t) :
    v.enabled = false := by
  obtain ⟨irq, hpc⟩ := Level.waits_eq_some hl
  have hfits := h.fits
  rw [hpc] at hfits
  exact hfits.1

omit [DecidableEq ι] [DecidableEq τ] [Fintype ι] in
theorem Inv.exclusive (hi : Inv s) (hc : (s.now c).holds l = true)
    (hd : (s.now d).holds l = true) : c = d := by
  obtain ⟨holder, line, hline⟩ := hi.lined l
  exact hline.exclusive hc hd

omit [Fintype ι] in
/-- A guard is given up by `drop` alone. -/
theorem Step.holds (hi : Inv s) (h : Step s a s') (hc : (s.now c).holds l = true)
    (ha : a ≠ .drop c) : (s'.now c).holds l = true := by
  have hnow {d : ι} {v : Level κ} (s : Machine ι κ τ δ) (hc : (s.now c).holds l = true)
      (hv : c = d → v.holds l = true) : ((s.setNow d v).now c).holds l = true := by
    by_cases hd : c = d
    · subst hd
      rw [Machine.setNow_now_self]
      exact hv rfl
    · rwa [Machine.setNow_now_of_ne s v hd]
  have hcore {d : ι} {k : Core κ} (hne : c ≠ d) : ((s.setCore d k).now c).holds l = true := by
    rw [Machine.now, Machine.setCore_cores_of_ne s k hne]
    exact hc
  cases h with
  | lock d => exact hnow s hc fun heq => heq ▸ hc
  | interruptsEnabled d => exact hnow s hc fun heq => heq ▸ hc
  | disableInterrupts d => exact hnow s hc fun heq => heq ▸ hc
  | fetchAdd d => exact hnow _ hc fun heq => heq ▸ hc
  | spinLoop => exact hc
  | enter d m irq =>
    refine hnow s hc fun heq => ?_
    subst heq
    obtain ⟨g, hg, hl⟩ := holds_iff.mp hc
    exact holds_iff.mpr ⟨g, List.mem_cons_of_mem _ hg, hl⟩
  | derefMut => exact hc
  | drop d => exact hnow _ hc fun heq => absurd (by rw [heq]) ha
  | irqRestore d => exact hnow s hc fun heq => heq ▸ hc
  | setInterrupts d => exact hnow s hc fun heq => heq ▸ hc
  | interrupt d hif =>
    refine hcore fun heq => ?_
    subst heq
    have hoff := (hi.cores c).now.of_holds hc
    exact absurd hif (by simp [show (s.now c).enabled = false from hoff])
  | iret d v vs hout =>
    refine hcore fun heq => ?_
    subst heq
    simp [hout.holds] at hc
  | contextSwitch d t hout =>
    refine hcore fun heq => ?_
    subst heq
    simp [hout.holds] at hc

omit [Fintype ι] in
/-- The data under a lock is written through a guard. -/
theorem Step.data (h : Step s a s') (l : κ) : (s'.locks l).data = (s.locks l).data ∨
    ∃ c f, a = .derefMut c l f ∧ (s.now c).holds l = true := by
  have hlock {m : κ} (x : SpinLock (δ m)) (hx : x.data = (s.locks m).data) :
      ((s.setLock m x).locks l).data = (s.locks l).data := by
    by_cases hl : l = m
    · subst hl
      rw [Machine.setLock_locks_self, hx]
    · rw [Machine.setLock_locks_of_ne s x hl]
  cases h with
  | fetchAdd => exact .inl (hlock _ rfl)
  | drop => exact .inl (hlock _ rfl)
  | derefMut c m f hpc hg =>
    by_cases hl : l = m
    · subst hl
      exact .inr ⟨c, f, rfl, hg⟩
    · left
      rw [Machine.setLock_locks_of_ne s _ hl]
  | _ => exact .inl rfl

/-- At any moment there is one guard of a lock on the whole machine at most: not two on two
cores, not two on one, and none on a level that an interrupt has cut off or on a task that is not
running. -/
theorem one_guard (hn : Fintype.card ι < 2 ^ 32) (hs : Reachable s) :
    (∀ c d l, (s.now c).holds l = true → (s.now d).holds l = true → c = d) ∧
    (∀ c, ((s.now c).guards.map SpinGuard.lock).Nodup) ∧
    (∀ c, ∀ v ∈ s.interrupted c, v.guards = []) ∧
    ∀ t, (s.parked t).now.guards = [] ∧ ∀ v ∈ (s.parked t).interrupted, v.guards = [] := by
  have hi := hs.inv hn
  refine ⟨fun c d l => hi.exclusive, fun c => (hi.cores c).now.once, fun c v hv => ?_, fun t => ?_⟩
  · obtain ⟨hok, hif⟩ := (hi.cores c).interrupted v hv
    exact hok.guards_eq_nil hif
  · refine ⟨(hi.parked t).2.2, fun v hv => ?_⟩
    obtain ⟨hok, hif⟩ := (hi.parked t).1.interrupted v hv
    exact hok.guards_eq_nil hif

/-- Two cores with interrupts on, and one lock that both have called. -/
def twoCores : Machine (Fin 2) Unit Unit fun _ => ℕ where
  locks _ := .new 0
  cores _ := ⟨⟨.body, [], true⟩, []⟩
  parked _ := ⟨⟨.body, [], true⟩, []⟩

def duel : Machine (Fin 2) Unit Unit fun _ => ℕ := (twoCores.queue 0 ()).queue 1 ()

/-- The first of the two is in. -/
def duelEntered : Machine (Fin 2) Unit Unit fun _ => ℕ :=
  duel.setNow 0 { duel.now 0 with pc := .body, guards := [⟨(), true⟩] }

theorem twoCores_boot : Boot twoCores := ⟨fun _ => rfl, fun _ => ⟨⟨rfl, rfl⟩, rfl⟩,
  fun _ => ⟨⟨rfl, rfl⟩, rfl⟩⟩

omit [Fintype ι] in
theorem Boot.reachable (h : Boot s) : Reachable s := ⟨s, h, .refl⟩

theorem run_duel : Run Step (fun _ => True) twoCores duel :=
  (run_queue () rfl).trans (run_queue () rfl)

theorem duel_reachable : Reachable duel := ⟨twoCores, twoCores_boot, run_duel⟩

theorem duelEntered_reachable : Reachable duelEntered :=
  ⟨twoCores, twoCores_boot, run_duel.tail trivial (.enter 0 () true 0 rfl rfl)⟩

theorem one_guard_duel : (duelEntered.now 1).holds () = false := by
  rw [Bool.eq_false_iff]
  intro h
  exact absurd ((one_guard (by simp) duelEntered_reachable).1 0 1 () rfl h) (by decide)

/-- Between two of its own accesses, a core that keeps the guard finds the data as it left it,
whatever the other cores do. -/
theorem data_stable (hn : Fintype.card ι < 2 ^ 32) (hs : Reachable s)
    (hc : (s.now c).holds l = true)
    (h : Run Step (fun a => a ≠ .drop c ∧ ∀ f, a ≠ .derefMut c l f) s s') :
    (s'.now c).holds l = true ∧ (s'.locks l).data = (s.locks l).data := by
  have hrun := h.invariant
    (fun x => Inv x ∧ (x.now c).holds l = true ∧ (x.locks l).data = (s.locks l).data)
    ⟨hs.inv hn, hc, rfl⟩ ?_
  · exact hrun.2
  · rintro x a y ⟨hi, hx, hdata⟩ ⟨hdrop, hderef⟩ hstep
    refine ⟨hi.step hn hstep, hstep.holds hi hx hdrop, ?_⟩
    obtain heq | ⟨d, f, rfl, hd⟩ := hstep.data l
    · rw [heq, hdata]
    · obtain rfl := hi.exclusive hx hd
      exact absurd rfl (hderef f)

theorem data_stable_duel :
    ((duelEntered.now 0).holds () = true) ∧ (duelEntered.locks ()).data = 0 :=
  data_stable (by simp) duelEntered_reachable rfl
    (.single ⟨by simp, by simp⟩ (.spinLoop 1 () true 1 rfl (by decide)))

/-- Where a core holds a lock or waits for one, no interrupt comes, and nothing that an
interrupt has cut off on this core holds a lock or waits for one: a handler never needs a lock
that its own core keeps from it. -/
theorem critical_masked (hn : Fintype.card ι < 2 ^ 32) (hs : Reachable s)
    (hc : (s.now c).holds l = true ∨ (s.now c).waits l = some t) :
    (s.now c).enabled = false ∧ (∀ x, ¬ Step s (.interrupt c) x) ∧
      ∀ v ∈ s.interrupted c, ∀ m, v.holds m = false ∧ v.waits m = none := by
  have hi := hs.inv hn
  have hoff : (s.now c).enabled = false := by
    obtain hc | hc := hc
    · exact (hi.cores c).now.of_holds hc
    · exact (hi.cores c).now.of_waits hc
  refine ⟨hoff, fun x hstep => ?_, fun v hv m => ?_⟩
  · cases hstep with
    | interrupt _ hif => simp [hoff] at hif
  · obtain ⟨hok, hif⟩ := (hi.cores c).interrupted v hv
    exact ⟨hok.holds_of_enabled hif m, hok.waits_of_enabled hif m⟩

theorem critical_masked_duel :
    (duel.now 1).enabled = false ∧ (∀ x, ¬ Step duel (.interrupt 1) x) ∧
      ∀ v ∈ duel.interrupted 1, ∀ m, v.holds m = false ∧ v.waits m = none :=
  critical_masked (t := 1) (l := ()) (by simp) duel_reachable (.inr rfl)

/-! ### The interrupt flag -/

/-- What the flag of each level will be outside of its critical sections. -/
def Core.homes (k : Core κ) : List Bool := k.now.home :: k.interrupted.map Level.home

omit [Fintype ι] in
/-- Taking and dropping locks leaves all of these alone; an interrupt adds a level and its
return takes it away. -/
theorem Step.homes (hi : Inv s) (h : Step s a s') (hset : ∀ b, a ≠ .setInterrupts c b)
    (hswitch : ∀ t, a ≠ .contextSwitch c t) :
    (s'.cores c).homes = (s.cores c).homes ∨ (s'.cores c).homes = false :: (s.cores c).homes ∨
      (s.cores c).homes = (s.now c).home :: (s'.cores c).homes := by
  have hnow {d : ι} {v : Level κ} (x : Machine ι κ τ δ) (hx : x.cores = s.cores)
      (hv : c = d → v.home = (s.now d).home) : ((x.setNow d v).cores c).homes = (s.cores c).homes := by
    by_cases hd : c = d
    · subst hd
      rw [Machine.setNow, Machine.setCore_cores_self, Core.homes, hv rfl, Machine.interrupted, hx]
      rfl
    · rw [Machine.setNow, Machine.setCore_cores_of_ne x _ hd, hx]
  have hok := fun d => (hi.cores d).now
  cases h with
  | lock d l hpc => exact .inl (hnow s rfl fun _ => Level.home_lock hpc)
  | interruptsEnabled d l hpc => exact .inl (hnow s rfl fun _ => Level.home_interruptsEnabled hpc)
  | disableInterrupts d l was hpc =>
    exact .inl (hnow s rfl fun _ => (hok d).home_disableInterrupts hpc)
  | fetchAdd d l irq hpc => exact .inl (hnow _ rfl fun _ => Level.home_fetchAdd hpc)
  | spinLoop => exact .inl rfl
  | enter d l irq ticket hpc => exact .inl (hnow s rfl fun _ => Level.home_enter hpc)
  | derefMut => exact .inl rfl
  | drop d g gs hpc hg => exact .inl (hnow _ rfl fun _ => Level.home_drop hg)
  | irqRestore d was hpc => exact .inl (hnow s rfl fun _ => (hok d).home_irqRestore hpc)
  | setInterrupts d b => exact .inl (hnow s rfl fun heq => absurd (by rw [heq]) (hset b))
  | interrupt d =>
    by_cases hd : c = d
    · subst hd
      rw [Machine.setCore_cores_self]
      exact .inr (.inl rfl)
    · rw [Machine.setCore_cores_of_ne s _ hd]
      exact .inl rfl
  | iret d v vs hout hint =>
    by_cases hd : c = d
    · subst hd
      refine .inr (.inr ?_)
      rw [Machine.setCore_cores_self, Core.homes, show (s.cores c).interrupted = v :: vs from hint]
      rfl
    · rw [Machine.setCore_cores_of_ne s _ hd]
      exact .inl rfl
  | contextSwitch d t =>
    have hd : c ≠ d := fun heq => hswitch t (by rw [heq])
    left
    show ((s.setCore d _).cores c).homes = _
    rw [Machine.setCore_cores_of_ne s _ hd]

/-- From outside of all locks to outside of all locks, through any nesting of them and through
any interrupts that return, the flag comes back as it was: a lock never leaves interrupts on for
a caller that had them off, nor off for one that had them on. -/
theorem irq_restored (hn : Fintype.card ι < 2 ^ 32) (hs : Reachable s)
    (h : Run (fun x a y => Step x a y ∧ (s.interrupted c).length ≤ (y.interrupted c).length)
      (fun a => (∀ b, a ≠ .setInterrupts c b) ∧ ∀ t, a ≠ .contextSwitch c t) s s')
    (hdepth : (s'.interrupted c).length = (s.interrupted c).length)
    (hout : (s.now c).Outside) (hout' : (s'.now c).Outside) :
    (s'.now c).enabled = (s.now c).enabled := by
  have hlen (x : Machine ι κ τ δ) : (x.cores c).homes.length = (x.interrupted c).length + 1 := by
    simp [Core.homes, Machine.interrupted]
  have hrun := h.invariant (fun x => Inv x ∧ (s.cores c).homes <:+ (x.cores c).homes)
    ⟨hs.inv hn, List.suffix_rfl⟩ ?_
  · have heq : (s.cores c).homes = (s'.cores c).homes :=
      hrun.2.eq_of_length (by rw [hlen, hlen, hdepth])
    have hhome : (s.now c).home = (s'.now c).home := (List.cons.inj heq).1
    rw [← hout.home, ← hout'.home, hhome]
  · rintro x a y ⟨hi, hx⟩ ⟨hset, hswitch⟩ ⟨hstep, hdeep⟩
    refine ⟨hi.step hn hstep, ?_⟩
    obtain heq | heq | heq := hstep.homes hi hset hswitch
    · rwa [heq]
    · rw [heq]
      exact hx.trans (List.suffix_cons _ _)
    · rw [heq] at hx
      obtain hall | hrest := List.suffix_cons_iff.mp hx
      · have hcount := congrArg List.length hall
        rw [List.length_cons, hlen, hlen] at hcount
        omega
      · exact hrest

theorem irq_restored_lone : ∃ s : Machine (Fin 2) Unit Unit fun _ => ℕ,
    (s.locks ()).serving = 1 ∧ (s.now 0).enabled = true := by
  have hcall : Run (fun x a y => Step x a y ∧
        (twoCores.interrupted 0).length ≤ (y.interrupted 0).length)
      (fun a => (∀ b, a ≠ .setInterrupts 0 b) ∧ ∀ t, a ≠ .contextSwitch 0 t) twoCores _ :=
    .single ⟨by simp, by simp⟩ ⟨.lock 0 () rfl, Nat.zero_le _⟩
  have hread := hcall.tail ⟨by simp, by simp⟩ ⟨.interruptsEnabled 0 () rfl, Nat.zero_le _⟩
  have hcli := hread.tail ⟨by simp, by simp⟩ ⟨.disableInterrupts 0 () true rfl, Nat.zero_le _⟩
  have htake := hcli.tail ⟨by simp, by simp⟩ ⟨.fetchAdd 0 () true rfl, Nat.zero_le _⟩
  have henter := htake.tail ⟨by simp, by simp⟩ ⟨.enter 0 () true 0 rfl rfl, Nat.zero_le _⟩
  have hdrop := henter.tail ⟨by simp, by simp⟩ ⟨.drop 0 ⟨(), true⟩ [] rfl rfl, Nat.zero_le _⟩
  have hsti := hdrop.tail ⟨by simp, by simp⟩ ⟨.irqRestore 0 true rfl, Nat.zero_le _⟩
  exact ⟨_, rfl, irq_restored (by simp) twoCores_boot.reachable hsti rfl ⟨rfl, rfl⟩ ⟨rfl, rfl⟩⟩

/-! ### The order of the tickets -/

/-- How many tickets of `l` are served before `t`. -/
def Machine.ahead (s : Machine ι κ τ δ) (l : κ) (t : BitVec 32) : ℕ :=
  (t - (s.locks l).serving).toNat

/-- First come, first served: of two cores that wait for a lock, the one with the earlier ticket
enters before the other, whatever the cores do meanwhile, and no more cores than there are come
before it. -/
theorem first_served (hn : Fintype.card ι < 2 ^ 32) (hs : Reachable s)
    (hc : (s.now c).waits l = some t) (hd : (s.now d).waits l = some u)
    (hlt : s.ahead l t < s.ahead l u) (h : Run Step (fun a => a ≠ .enter c l) s s') :
    (s'.now c).waits l = some t ∧ (s'.now d).waits l = some u ∧
      s'.ahead l t < s'.ahead l u ∧ s'.ahead l u ≤ Fintype.card ι ∧
      ∀ x, ¬ Step s' (.enter d l) x := by
  have hrun := h.invariant (fun x => Inv x ∧ (x.view l).spins c = some t ∧
    (x.view l).spins d = some u ∧ (x.view l).rank t < (x.view l).rank u) ⟨hs.inv hn, hc, hd, hlt⟩ ?_
  · obtain ⟨hi, hc', hd', hlt'⟩ := hrun
    obtain ⟨holder, line, hline⟩ := hi.lined l
    refine ⟨hc', hd', hlt', hline.rank_le hn hd', fun x hstep => ?_⟩
    cases hstep with
    | enter _ _ irq ticket hpc heq =>
      have hserved : (s'.view l).spins d = some (s'.view l).serving := by
        simp [Machine.view, Level.waits, hpc, heq]
      obtain rfl := Option.some.inj (hd'.symm.trans hserved)
      simp [Library.TicketLock.rank] at hlt'
  · rintro x a y ⟨hi, hc, hd, hlt⟩ ha hstep
    refine ⟨hi.step hn hstep, ?_⟩
    obtain ⟨holder, line, hline⟩ := hi.lined l
    obtain heq | ⟨b, hb, henter⟩ := view_step hi hstep l
    · rw [heq]
      exact ⟨hc, hd, hlt⟩
    · exact hline.before_step hn hb (fun heq => ha (henter c heq)) hc hd hlt

theorem first_served_duel :
    (duel.now 0).waits () = some 0 ∧ (duel.now 1).waits () = some 1 ∧
      duel.ahead () 0 < duel.ahead () 1 ∧ duel.ahead () 1 ≤ Fintype.card (Fin 2) ∧
      ∀ x, ¬ Step duel (.enter 1 ()) x :=
  first_served (c := 0) (t := 0) (u := 1) (by simp) duel_reachable rfl rfl (by decide)
    (.single (by simp) (.spinLoop 1 () true 1 rfl (by decide)))

/-! ### No deadlock -/

omit [DecidableEq ι] [DecidableEq τ] [Fintype ι] in
theorem Inv.served (hi : Inv s) (hc : (s.now c).waits l = some t) :
    (∃ d, (s.now d).holds l = true) ∨
      ∃ d, (s.now d).waits l = some (s.locks l).serving := by
  obtain ⟨holder, line, hline⟩ := hi.lined l
  exact hline.served hc

/-- The place in `order` of the lock that the level waits for, counted from one. -/
def Level.awaits (order : κ → ℕ) (v : Level κ) : ℕ :=
  match v.pc with
  | .spin l _ _ => order l + 1
  | _ => 0

omit [DecidableEq ι] [DecidableEq τ] [Fintype ι] in
theorem Level.awaits_of_waits {v : Level κ} (order : κ → ℕ) (h : v.waits l = some t) :
    v.awaits order = order l + 1 := by
  obtain ⟨irq, hpc⟩ := Level.waits_eq_some h
  simp [Level.awaits, hpc]

omit [DecidableEq ι] [DecidableEq τ] [Fintype ι] in
theorem Level.waits_of_awaits {v : Level κ} (order : κ → ℕ) (h : 0 < v.awaits order) :
    ∃ l t, v.waits l = some t := by
  unfold Level.awaits at h
  cases hpc : v.pc with
  | spin l irq ticket => exact ⟨l, ticket, by simp [Level.waits, hpc]⟩
  | _ => simp [hpc] at h

/-- Where every core that waits holds only locks below the one it waits for, some core that
waits can enter, or some core that holds a lock that is waited for waits for none. -/
theorem no_deadlock (hn : Fintype.card ι < 2 ^ 32) (hs : Reachable s) (order : κ → ℕ)
    (hord : ∀ c l t, (s.now c).waits l = some t →
      ∀ m, (s.now c).holds m = true → order m < order l)
    (hc : (s.now c).waits l = some t) :
    (∃ d m x, Step s (.enter d m) x) ∨
      ∃ d m, (s.now d).holds m = true ∧ (∃ b u, (s.now b).waits m = some u) ∧
        ∀ m', (s.now d).waits m' = none := by
  have hi := hs.inv hn
  -- the highest lock that anyone waits for: its holder waits for nothing
  obtain ⟨d, -, hmax⟩ := Finset.exists_max_image Finset.univ
    (fun d => (s.now d).awaits order) ⟨c, Finset.mem_univ c⟩
  have hpos : 0 < (s.now d).awaits order := by
    have hle := hmax c (Finset.mem_univ c)
    rw [Level.awaits_of_waits order hc] at hle
    omega
  obtain ⟨m, u, hd⟩ := Level.waits_of_awaits order hpos
  obtain ⟨b, hb⟩ | ⟨b, hb⟩ := hi.served hd
  · refine .inr ⟨b, m, hb, ⟨d, u, hd⟩, fun m' => ?_⟩
    by_contra hwaits
    obtain ⟨u', hu'⟩ := Option.ne_none_iff_exists'.mp hwaits
    have hbelow := hord b m' u' hu' m hb
    have habove := hmax b (Finset.mem_univ b)
    rw [Level.awaits_of_waits order hu', Level.awaits_of_waits order hd] at habove
    omega
  · obtain ⟨irq, hpc⟩ := Level.waits_eq_some hb
    exact .inl ⟨b, m, _, .enter b m irq _ hpc rfl⟩

theorem no_deadlock_duel : (∃ d m x, Step duel (.enter d m) x) ∨
    ∃ d m, (duel.now d).holds m = true ∧ (∃ b u, (duel.now b).waits m = some u) ∧
      ∀ m', (duel.now d).waits m' = none :=
  have hfree : ∀ c m, (duel.now c).holds m = false := by decide
  no_deadlock (c := 1) (l := ()) (t := 1) (by simp) duel_reachable (fun _ => 0)
    (fun c _ _ _ m hm => absurd hm (by simp [hfree c m])) rfl

end StarOs.Kernel.Sync
