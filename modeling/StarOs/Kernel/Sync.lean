import StarOs.Library.TicketLock

/-! The ticket spinlock of the kernel on a machine of many cores. A core runs a stack of levels:
the code it is in, and below it what interrupts have cut off. Taking a lock reads `RFLAGS.IF`,
clears it, takes a ticket and spins until the ticket is served, and any other core, and an
interrupt wherever the flag is set, may come between two of these steps. -/

namespace StarOs.Kernel.Sync

open Library (Run TicketLock)

structure SpinLock (α : Type) where
  next : BitVec 32
  serving : BitVec 32
  data : α

/-- `SpinLock::new`. -/
def SpinLock.new {α : Type} (data : α) : SpinLock α := ⟨0, 0, data⟩

structure SpinGuard (κ : Type) where
  lock : κ
  irq : Bool
  deriving DecidableEq

/-- Where a level is in `lock` or in `drop`, or that it is in neither. -/
inductive Pc (κ : Type) where
  | body
  | irqSave (l : κ)
  | disableInterrupts (l : κ) (wasEnabled : Bool)
  | fetchAdd (l : κ) (irq : Bool)
  | spin (l : κ) (irq : Bool) (ticket : BitVec 32)
  | irqRestore (wasEnabled : Bool)
  deriving DecidableEq

/-- One level: the guards it holds, the latest first, and `RFLAGS.IF`. -/
structure Level (κ : Type) where
  pc : Pc κ
  guards : List (SpinGuard κ)
  enabled : Bool
  deriving DecidableEq

structure Core (κ : Type) where
  now : Level κ
  interrupted : List (Level κ)
  deriving DecidableEq

/-- Cores `ι`, locks `κ` over data of the types `δ`, and the tasks `τ` that are not running. -/
structure Machine (ι κ τ : Type) (δ : κ → Type) where
  locks : (l : κ) → SpinLock (δ l)
  cores : ι → Core κ
  parked : τ → Core κ

inductive Act (ι κ τ : Type) (δ : κ → Type) where
  | lock (c : ι) (l : κ)
  | interruptsEnabled (c : ι)
  | disableInterrupts (c : ι)
  | fetchAdd (c : ι)
  | spinLoop (c : ι)
  | enter (c : ι) (l : κ)
  | derefMut (c : ι) (l : κ) (f : δ l → δ l)
  | drop (c : ι)
  | irqRestore (c : ι)
  | setInterrupts (c : ι) (enabled : Bool)
  | interrupt (c : ι)
  | iret (c : ι)
  | contextSwitch (c : ι) (t : τ)

namespace Level

variable {κ : Type}

/-- Running, and in no critical section. -/
def Outside (v : Level κ) : Prop := v.pc = .body ∧ v.guards = []

/-- The ticket of `l` on which the level spins. -/
def waits [DecidableEq κ] (v : Level κ) (l : κ) : Option (BitVec 32) :=
  match v.pc with
  | .spin l' _ ticket => if l' = l then some ticket else none
  | _ => none

def holds [DecidableEq κ] (v : Level κ) (l : κ) : Bool := v.guards.any fun g => g.lock = l

end Level

namespace Machine

variable {ι κ τ : Type} {δ : κ → Type}

def now (s : Machine ι κ τ δ) (c : ι) : Level κ := (s.cores c).now

def interrupted (s : Machine ι κ τ δ) (c : ι) : List (Level κ) := (s.cores c).interrupted

section cores

variable [DecidableEq ι]

def setCore (s : Machine ι κ τ δ) (c : ι) (k : Core κ) : Machine ι κ τ δ :=
  { s with cores := Function.update s.cores c k }

def setNow (s : Machine ι κ τ δ) (c : ι) (v : Level κ) : Machine ι κ τ δ :=
  s.setCore c { now := v, interrupted := s.interrupted c }

variable (s : Machine ι κ τ δ) {c d : ι} (k : Core κ) (v : Level κ)

@[simp] theorem setCore_cores_self : (s.setCore c k).cores c = k := Function.update_self ..
theorem setCore_cores_of_ne (h : d ≠ c) : (s.setCore c k).cores d = s.cores d :=
  Function.update_of_ne h ..
@[simp] theorem setCore_locks : (s.setCore c k).locks = s.locks := rfl
@[simp] theorem setCore_parked : (s.setCore c k).parked = s.parked := rfl
@[simp] theorem setNow_now_self : (s.setNow c v).now c = v :=
  congrArg Core.now (setCore_cores_self ..)
theorem setNow_now_of_ne (h : d ≠ c) : (s.setNow c v).now d = s.now d :=
  congrArg Core.now (setCore_cores_of_ne s _ h)
@[simp] theorem setNow_interrupted : (s.setNow c v).interrupted d = s.interrupted d := by
  by_cases h : d = c
  · subst h
    show ((s.setCore d _).cores d).interrupted = _
    rw [setCore_cores_self]
  · exact congrArg Core.interrupted (setCore_cores_of_ne s _ h)
@[simp] theorem setNow_locks : (s.setNow c v).locks = s.locks := rfl
@[simp] theorem setNow_parked : (s.setNow c v).parked = s.parked := rfl

end cores

section locks

variable [DecidableEq κ]

def setLock (s : Machine ι κ τ δ) (l : κ) (x : SpinLock (δ l)) : Machine ι κ τ δ :=
  { s with locks := Function.update s.locks l x }

variable (s : Machine ι κ τ δ) {l m : κ} (x : SpinLock (δ l)) {c : ι}

@[simp] theorem setLock_locks_self : (s.setLock l x).locks l = x := Function.update_self ..
theorem setLock_locks_of_ne (h : m ≠ l) : (s.setLock l x).locks m = s.locks m :=
  Function.update_of_ne h ..
@[simp] theorem setLock_cores : (s.setLock l x).cores = s.cores := rfl
@[simp] theorem setLock_now : (s.setLock l x).now c = s.now c := rfl
@[simp] theorem setLock_parked : (s.setLock l x).parked = s.parked := rfl

end locks

def park [DecidableEq τ] (s : Machine ι κ τ δ) (t : τ) (k : Core κ) : Machine ι κ τ δ :=
  { s with parked := Function.update s.parked t k }

theorem park_parked_self [DecidableEq τ] (s : Machine ι κ τ δ) (t : τ) (k : Core κ) :
    (s.park t k).parked t = k := Function.update_self ..

theorem park_parked_of_ne [DecidableEq τ] (s : Machine ι κ τ δ) {t u : τ} (k : Core κ)
    (h : u ≠ t) : (s.park t k).parked u = s.parked u := Function.update_of_ne h ..

end Machine

section semantics

variable {ι κ τ : Type} {δ : κ → Type} [DecidableEq ι] [DecidableEq κ] [DecidableEq τ]

/-- A guard is dropped in the reverse order of the locking, the flag is set or cleared by hand
only where no guard is held, and a task is switched only there. A switch leaves the flag as it
is. -/
inductive Step (s : Machine ι κ τ δ) : Act ι κ τ δ → Machine ι κ τ δ → Prop where
  | lock (c : ι) (l : κ) (hpc : (s.now c).pc = .body) :
      Step s (.lock c l) (s.setNow c { s.now c with pc := .irqSave l })
  | interruptsEnabled (c : ι) (l : κ) (hpc : (s.now c).pc = .irqSave l) :
      Step s (.interruptsEnabled c)
        (s.setNow c { s.now c with pc := .disableInterrupts l (s.now c).enabled })
  | disableInterrupts (c : ι) (l : κ) (was : Bool)
      (hpc : (s.now c).pc = .disableInterrupts l was) :
      Step s (.disableInterrupts c)
        (s.setNow c { s.now c with pc := .fetchAdd l was, enabled := false })
  | fetchAdd (c : ι) (l : κ) (irq : Bool) (hpc : (s.now c).pc = .fetchAdd l irq) :
      Step s (.fetchAdd c)
        ((s.setLock l { s.locks l with next := (s.locks l).next + 1 }).setNow c
          { s.now c with pc := .spin l irq (s.locks l).next })
  | spinLoop (c : ι) (l : κ) (irq : Bool) (ticket : BitVec 32)
      (hpc : (s.now c).pc = .spin l irq ticket) (hne : (s.locks l).serving ≠ ticket) :
      Step s (.spinLoop c) s
  | enter (c : ι) (l : κ) (irq : Bool) (ticket : BitVec 32)
      (hpc : (s.now c).pc = .spin l irq ticket) (heq : (s.locks l).serving = ticket) :
      Step s (.enter c l)
        (s.setNow c { s.now c with pc := .body, guards := ⟨l, irq⟩ :: (s.now c).guards })
  | derefMut (c : ι) (l : κ) (f : δ l → δ l) (hpc : (s.now c).pc = .body)
      (hg : (s.now c).holds l = true) :
      Step s (.derefMut c l f) (s.setLock l { s.locks l with data := f (s.locks l).data })
  | drop (c : ι) (g : SpinGuard κ) (gs : List (SpinGuard κ)) (hpc : (s.now c).pc = .body)
      (hg : (s.now c).guards = g :: gs) :
      Step s (.drop c)
        ((s.setLock g.lock { s.locks g.lock with serving := (s.locks g.lock).serving + 1 }).setNow c
          { s.now c with pc := .irqRestore g.irq, guards := gs })
  | irqRestore (c : ι) (was : Bool) (hpc : (s.now c).pc = .irqRestore was) :
      Step s (.irqRestore c)
        (s.setNow c { s.now c with pc := .body, enabled := was || (s.now c).enabled })
  | setInterrupts (c : ι) (b : Bool) (hout : (s.now c).Outside) :
      Step s (.setInterrupts c b) (s.setNow c { s.now c with enabled := b })
  | interrupt (c : ι) (hif : (s.now c).enabled = true) :
      Step s (.interrupt c) (s.setCore c ⟨⟨.body, [], false⟩, s.now c :: s.interrupted c⟩)
  | iret (c : ι) (v : Level κ) (vs : List (Level κ)) (hout : (s.now c).Outside)
      (hint : s.interrupted c = v :: vs) : Step s (.iret c) (s.setCore c ⟨v, vs⟩)
  | contextSwitch (c : ι) (t : τ) (hout : (s.now c).Outside) :
      Step s (.contextSwitch c t)
        ((s.setCore c ⟨{ (s.parked t).now with enabled := (s.now c).enabled },
          (s.parked t).interrupted⟩).park t (s.cores c))

/-- Every lock is new, and every core and every task is outside of them. -/
structure Boot (s : Machine ι κ τ δ) : Prop where
  locks : ∀ l, s.locks l = .new (s.locks l).data
  cores : ∀ c, (s.now c).Outside ∧ s.interrupted c = []
  parked : ∀ t, (s.parked t).now.Outside ∧ (s.parked t).interrupted = []

/-- What the machine can come to, from power on, by steps of its cores in any order. -/
def Reachable (s : Machine ι κ τ δ) : Prop :=
  ∃ s₀, Boot s₀ ∧ Run Step (fun _ => True) s₀ s

end semantics

/-! ### One level -/

section level

variable {κ : Type} {v : Level κ} {l m : κ} {irq was b : Bool} {ticket : BitVec 32}
  {g : SpinGuard κ} {gs : List (SpinGuard κ)}

/-- From the clearing of the flag to its restoring it is clear, and what `lock` carries on is
what will be restored; under a guard that is nothing. -/
def Pc.Fits (pc : Pc κ) (guards : List (SpinGuard κ)) (enabled : Bool) : Prop :=
  match pc with
  | .body => True
  | .irqSave _ => True
  | .disableInterrupts _ was => was = enabled
  | .fetchAdd _ irq => enabled = false ∧ (guards ≠ [] → irq = false)
  | .spin _ irq _ => enabled = false ∧ (guards ≠ [] → irq = false)
  | .irqRestore was => enabled = false ∧ (guards ≠ [] → was = false)

structure Level.Ok (v : Level κ) : Prop where
  masked : v.guards ≠ [] → v.enabled = false
  inner : v.guards.Pairwise fun g _ => g.irq = false
  once : (v.guards.map SpinGuard.lock).Nodup
  fits : v.pc.Fits v.guards v.enabled

/-- The flag as it will be once the level is out of every critical section. -/
def Level.home (v : Level κ) : Bool :=
  match v.guards.getLast?, v.pc with
  | some g, _ => g.irq
  | none, .fetchAdd _ irq => irq
  | none, .spin _ irq _ => irq
  | none, .irqRestore was => was
  | none, _ => v.enabled

theorem Level.Outside.home (h : v.Outside) : v.home = v.enabled := by
  simp [Level.home, h.1, h.2]

theorem Level.Outside.ok (h : v.Outside) : v.Ok where
  masked hne := absurd h.2 hne
  inner := by simp [h.2]
  once := by simp [h.2]
  fits := by simp [h.1, Pc.Fits]

theorem Level.Outside.withFlag (h : v.Outside) (b : Bool) : { v with enabled := b }.Outside := h

/-- What an interrupt may cut off: no critical section and no wait for one. -/
theorem Level.Ok.guards_eq_nil (h : v.Ok) (hif : v.enabled = true) : v.guards = [] := by
  by_contra hne
  simp [h.masked hne] at hif

theorem Level.Ok.pc_ne_spin (h : v.Ok) (hif : v.enabled = true) (l : κ) (irq : Bool)
    (ticket : BitVec 32) : v.pc ≠ .spin l irq ticket := by
  intro hpc
  have hfits := h.fits
  rw [hpc] at hfits
  simp [hfits.1] at hif

theorem Level.Ok.lock (h : v.Ok) (l : κ) : { v with pc := .irqSave l }.Ok :=
  ⟨h.masked, h.inner, h.once, trivial⟩

theorem Level.Ok.interruptsEnabled (h : v.Ok) (l : κ) :
    { v with pc := .disableInterrupts l v.enabled }.Ok :=
  ⟨h.masked, h.inner, h.once, rfl⟩

theorem Level.Ok.disableInterrupts (h : v.Ok) (hpc : v.pc = .disableInterrupts l was) :
    { v with pc := .fetchAdd l was, enabled := false }.Ok := by
  have hfits := h.fits
  rw [hpc] at hfits
  refine ⟨fun _ => rfl, h.inner, h.once, rfl, fun hne => ?_⟩
  exact Eq.trans hfits (h.masked hne)

theorem Level.Ok.fetchAdd (h : v.Ok) (hpc : v.pc = .fetchAdd l irq) (ticket : BitVec 32) :
    { v with pc := .spin l irq ticket }.Ok := by
  have hfits := h.fits
  rw [hpc] at hfits
  exact ⟨h.masked, h.inner, h.once, hfits⟩

theorem Level.Ok.enter (h : v.Ok) (hpc : v.pc = .spin l irq ticket)
    (hnot : ∀ g ∈ v.guards, g.lock ≠ l) :
    { v with pc := .body, guards := ⟨l, irq⟩ :: v.guards }.Ok := by
  have hfits := h.fits
  rw [hpc] at hfits
  refine ⟨fun _ => hfits.1, List.pairwise_cons.mpr ⟨fun g hg => ?_, h.inner⟩, ?_, trivial⟩
  · exact hfits.2 (List.ne_nil_of_mem hg)
  · simpa [h.once] using fun g hg => hnot g hg

theorem Level.Ok.drop (h : v.Ok) (hg : v.guards = g :: gs) :
    { v with pc := .irqRestore g.irq, guards := gs }.Ok := by
  have hif : v.enabled = false := h.masked (by simp [hg])
  have hinner := h.inner
  have honce := h.once
  rw [hg] at hinner honce
  refine ⟨fun _ => hif, (List.pairwise_cons.mp hinner).2, (List.nodup_cons.mp honce).2, hif,
    fun hne => ?_⟩
  obtain ⟨g', hmem⟩ := List.exists_mem_of_ne_nil gs hne
  exact (List.pairwise_cons.mp hinner).1 g' hmem

theorem Level.Ok.irqRestore (h : v.Ok) (hpc : v.pc = .irqRestore was) :
    { v with pc := .body, enabled := was || v.enabled }.Ok := by
  have hfits := h.fits
  rw [hpc] at hfits
  refine ⟨fun hne => ?_, h.inner, h.once, trivial⟩
  simp [hfits.1, hfits.2 hne]

section home

theorem Level.home_lock (hpc : v.pc = .body) : { v with pc := .irqSave l }.home = v.home := by
  unfold Level.home
  cases v.guards.getLast? <;> simp [hpc]

theorem Level.home_interruptsEnabled (hpc : v.pc = .irqSave l) :
    { v with pc := .disableInterrupts l v.enabled }.home = v.home := by
  unfold Level.home
  cases v.guards.getLast? <;> simp [hpc]

theorem Level.Ok.home_disableInterrupts (h : v.Ok) (hpc : v.pc = .disableInterrupts l was) :
    { v with pc := .fetchAdd l was, enabled := false }.home = v.home := by
  have hfits := h.fits
  rw [hpc] at hfits
  have hwas : was = v.enabled := hfits
  unfold Level.home
  cases v.guards.getLast? <;> simp [hpc, hwas]

theorem Level.home_fetchAdd (hpc : v.pc = .fetchAdd l irq) :
    { v with pc := .spin l irq ticket }.home = v.home := by
  unfold Level.home
  cases v.guards.getLast? <;> simp [hpc]

theorem Level.home_enter (hpc : v.pc = .spin l irq ticket) :
    { v with pc := .body, guards := ⟨l, irq⟩ :: v.guards }.home = v.home := by
  unfold Level.home
  cases hgs : v.guards with
  | nil => simp [hpc]
  | cons g gs => simp [List.getLast?_cons]

theorem Level.home_drop (hg : v.guards = g :: gs) :
    { v with pc := .irqRestore g.irq, guards := gs }.home = v.home := by
  unfold Level.home
  rw [hg]
  cases gs with
  | nil => simp
  | cons g' gs => simp [List.getLast?_cons]

theorem Level.Ok.home_irqRestore (h : v.Ok) (hpc : v.pc = .irqRestore was) :
    { v with pc := .body, enabled := was || v.enabled }.home = v.home := by
  have hfits := h.fits
  rw [hpc] at hfits
  unfold Level.home
  cases v.guards.getLast? <;> simp [hpc, hfits.1]

end home

end level

/-! ### The whole machine -/

section machine

variable {ι κ τ : Type} {δ : κ → Type} [DecidableEq κ]
  {s s' : Machine ι κ τ δ} {a : Act ι κ τ δ} {c : ι} {l m : κ} {k : Core κ} {v : Level κ}

/-- Every interrupted level had its flag set, so it is in no critical section. -/
structure Core.Ok (k : Core κ) : Prop where
  now : k.now.Ok
  interrupted : ∀ v ∈ k.interrupted, v.Ok ∧ v.enabled = true

/-- What the lock `l` is to the cores. -/
def Machine.view (s : Machine ι κ τ δ) (l : κ) : TicketLock ι 32 where
  next := (s.locks l).next
  serving := (s.locks l).serving
  spins c := (s.now c).waits l
  holds c := (s.now c).holds l

structure Inv (s : Machine ι κ τ δ) : Prop where
  cores : ∀ c, (s.cores c).Ok
  parked : ∀ t, (s.parked t).Ok ∧ (s.parked t).now.Outside
  lined : ∀ l, ∃ holder line, (s.view l).Lined holder line

theorem Level.waits_of_pc (hpc : ∀ irq ticket, v.pc ≠ .spin l irq ticket) : v.waits l = none := by
  unfold Level.waits
  cases h : v.pc with
  | spin l' irq ticket =>
    have hne : l' ≠ l := fun heq => hpc irq ticket (heq ▸ h)
    simp [hne]
  | _ => rfl

theorem Level.waits_eq_some {ticket : BitVec 32} (h : v.waits l = some ticket) :
    ∃ irq, v.pc = .spin l irq ticket := by
  unfold Level.waits at h
  cases hpc : v.pc with
  | spin l' irq t =>
    rw [hpc] at h
    simp only at h
    split at h
    · subst_vars
      obtain rfl := Option.some.inj h
      exact ⟨irq, rfl⟩
    · cases h
  | _ => simp [hpc] at h

theorem Level.Outside.waits (h : v.Outside) (l : κ) : v.waits l = none := by
  simp [Level.waits, h.1]

theorem Level.Outside.holds (h : v.Outside) (l : κ) : v.holds l = false := by
  simp [Level.holds, h.2]

theorem Level.Ok.waits_of_enabled (h : v.Ok) (hif : v.enabled = true) (l : κ) :
    v.waits l = none :=
  Level.waits_of_pc fun irq ticket => h.pc_ne_spin hif l irq ticket

theorem Level.Ok.holds_of_enabled (h : v.Ok) (hif : v.enabled = true) (l : κ) :
    v.holds l = false := by
  simp [Level.holds, h.guards_eq_nil hif]

theorem Boot.inv (h : Boot s) : Inv s where
  cores c := ⟨(h.cores c).1.ok, by simp [show (s.cores c).interrupted = [] from (h.cores c).2]⟩
  parked t := ⟨⟨(h.parked t).1.ok, by simp [(h.parked t).2]⟩, (h.parked t).1⟩
  lined l := by
    refine ⟨none, [], TicketLock.Idle.lined ⟨?_, fun c => (h.cores c).1.waits l,
      fun c => (h.cores c).1.holds l⟩⟩
    show (s.locks l).next = (s.locks l).serving
    rw [h.locks l]
    rfl

theorem view_setLock (x : SpinLock (δ l)) :
    (s.setLock l x).view l = { s.view l with next := x.next, serving := x.serving } := by
  simp [Machine.view]

theorem view_setLock_of_ne (x : SpinLock (δ l)) (h : m ≠ l) :
    (s.setLock l x).view m = s.view m := by
  simp [Machine.view, Machine.setLock_locks_of_ne s x h]

theorem view_park [DecidableEq τ] (t : τ) : (s.park t k).view l = s.view l := rfl

section run

variable [DecidableEq ι]

/-- A new core is seen by its current level alone. -/
theorem view_setCore : (s.setCore c k).view l =
    { s.view l with spins := Function.update (s.view l).spins c (k.now.waits l),
                    holds := Function.update (s.view l).holds c (k.now.holds l) } := by
  refine TicketLock.ext rfl rfl ?_ ?_
  · funext d
    by_cases hd : d = c
    · subst hd
      simp [Machine.view, Machine.now]
    · simp [Machine.view, Machine.now, Machine.setCore_cores_of_ne s k hd, hd]
  · funext d
    by_cases hd : d = c
    · subst hd
      simp [Machine.view, Machine.now]
    · simp [Machine.view, Machine.now, Machine.setCore_cores_of_ne s k hd, hd]

theorem view_setCore_spins (hh : k.now.holds l = (s.now c).holds l) : (s.setCore c k).view l =
    { s.view l with spins := Function.update (s.view l).spins c (k.now.waits l) } := by
  rw [view_setCore, hh]
  exact TicketLock.ext rfl rfl rfl (Function.update_eq_self ..)

theorem view_setCore_holds (hw : k.now.waits l = (s.now c).waits l) : (s.setCore c k).view l =
    { s.view l with holds := Function.update (s.view l).holds c (k.now.holds l) } := by
  rw [view_setCore, hw]
  exact TicketLock.ext rfl rfl (Function.update_eq_self ..) rfl

theorem view_setCore_of_eq (hw : k.now.waits l = (s.now c).waits l)
    (hh : k.now.holds l = (s.now c).holds l) : (s.setCore c k).view l = s.view l := by
  rw [view_setCore_spins hh, hw]
  exact TicketLock.ext rfl rfl (Function.update_eq_self ..) rfl

variable [DecidableEq τ]

/-- A step of the machine is a step of one lock, or none that a lock sees. -/
theorem view_step (hi : Inv s) (h : Step s a s') (l : κ) :
    s'.view l = s.view l ∨
      ∃ b, TicketLock.Step (s.view l) b (s'.view l) ∧ ∀ c, b = .enter c → a = .enter c l := by
  cases h with
  | lock c m hpc =>
    refine .inl (view_setCore_of_eq ?_ rfl)
    simp [Level.waits, hpc]
  | interruptsEnabled c m hpc =>
    refine .inl (view_setCore_of_eq ?_ rfl)
    simp [Level.waits, hpc]
  | disableInterrupts c m was hpc =>
    refine .inl (view_setCore_of_eq ?_ rfl)
    simp [Level.waits, hpc]
  | fetchAdd c m irq hpc =>
    by_cases hl : l = m
    · subst hl
      have hnone : (s.view l).spins c = none := by simp [Machine.view, Level.waits, hpc]
      refine .inr ⟨.take c, ?_, by simp⟩
      convert TicketLock.Step.take hnone using 1
      rw [Machine.setNow, view_setCore_spins, view_setLock]
      · simp [Level.waits, TicketLock.took, Machine.view]
      · rfl
    · left
      rw [Machine.setNow, view_setCore_of_eq, view_setLock_of_ne _ hl]
      · simpa [Level.waits, hpc] using fun heq => hl (Eq.symm heq)
      · rfl
  | spinLoop => exact .inl rfl
  | enter c m irq ticket hpc heq =>
    by_cases hl : l = m
    · subst hl
      refine .inr ⟨.enter c, ?_, by simp⟩
      have hserved : (s.view l).spins c = some (s.view l).serving := by
        simp [Machine.view, Level.waits, hpc, heq]
      convert TicketLock.Step.enter hserved using 1
      rw [Machine.setNow, view_setCore]
      simp [Level.waits, Level.holds, TicketLock.entered]
    · refine .inl (view_setCore_of_eq ?_ ?_)
      · simpa [Level.waits, hpc] using fun heq => hl (Eq.symm heq)
      · simpa [Level.holds] using fun heq => absurd (Eq.symm heq) hl
  | derefMut c m f hpc hg =>
    left
    by_cases hl : l = m
    · subst hl
      exact view_setLock _
    · exact view_setLock_of_ne _ hl
  | drop c g gs hpc hg =>
    have honce := (hi.cores c).now.once
    rw [show (s.cores c).now.guards = _ from hg, List.map_cons, List.nodup_cons] at honce
    by_cases hl : l = g.lock
    · subst hl
      refine .inr ⟨.drop c, ?_, by simp⟩
      have hheld : (s.view g.lock).holds c = true := by simp [Machine.view, Level.holds, hg]
      have hnot : gs.any (fun g' => g'.lock = g.lock) = false := by
        simpa using fun g' hmem heq => honce.1 (List.mem_map.mpr ⟨g', hmem, heq⟩)
      convert TicketLock.Step.drop hheld using 1
      rw [Machine.setNow, view_setCore_holds, view_setLock]
      · simp [Level.holds, TicketLock.dropped, Machine.view, hnot]
      · simp [Level.waits, hpc]
    · left
      rw [Machine.setNow, view_setCore_of_eq, view_setLock_of_ne _ hl]
      · simp [Level.waits, hpc]
      · simp [Level.holds, hg, Ne.symm hl]
  | irqRestore c was hpc =>
    refine .inl (view_setCore_of_eq ?_ rfl)
    simp [Level.waits, hpc]
  | setInterrupts c b hout => exact .inl (view_setCore_of_eq rfl rfl)
  | interrupt c hif =>
    have hnow := (hi.cores c).now
    exact .inl (view_setCore_of_eq (hnow.waits_of_enabled hif l).symm
      (hnow.holds_of_enabled hif l).symm)
  | iret c v vs hout hint =>
    have hv := (hi.cores c).interrupted v (by rw [show (s.cores c).interrupted = _ from hint]; simp)
    refine .inl (view_setCore_of_eq ?_ ?_)
    · rw [hout.waits, hv.1.waits_of_enabled hv.2]
    · rw [hout.holds, hv.1.holds_of_enabled hv.2]
  | contextSwitch c t hout =>
    have hpark := (hi.parked t).2
    left
    rw [view_park, view_setCore_of_eq]
    · rw [hout.waits]
      exact (hpark.withFlag _).waits l
    · rw [hout.holds]
      exact (hpark.withFlag _).holds l

theorem Step.parked_ok (hi : Inv s) (h : Step s a s') (t : τ) :
    (s'.parked t).Ok ∧ (s'.parked t).now.Outside := by
  cases h with
  | contextSwitch c u hout =>
    by_cases ht : t = u
    · subst ht
      rw [Machine.park_parked_self]
      exact ⟨hi.cores c, hout⟩
    · rw [Machine.park_parked_of_ne _ _ ht]
      exact hi.parked t
  | _ => exact hi.parked t

variable [Fintype ι]

omit [DecidableEq ι] [DecidableEq τ] in
/-- The lock that a core enters is held nowhere, by this core neither. -/
theorem Inv.free_of_served (hi : Inv s) (hn : Fintype.card ι < 2 ^ 32) {irq : Bool}
    (hpc : (s.now c).pc = .spin l irq (s.locks l).serving) (d : ι) : (s.now d).holds l = false := by
  obtain ⟨holder, line, hline⟩ := hi.lined l
  have hserved : (s.view l).spins c = some (s.view l).serving := by
    simp [Machine.view, Level.waits, hpc]
  exact hline.free_of_served hn hserved d

theorem Step.core_ok (hi : Inv s) (hn : Fintype.card ι < 2 ^ 32) (h : Step s a s') (c : ι) :
    (s'.cores c).Ok := by
  have hset {d : ι} {k : Core κ} (s : Machine ι κ τ δ) (hi : ∀ c, (s.cores c).Ok) (hk : k.Ok) :
      ((s.setCore d k).cores c).Ok := by
    by_cases hc : c = d
    · subst hc
      rwa [Machine.setCore_cores_self]
    · rw [Machine.setCore_cores_of_ne s k hc]
      exact hi c
  have hcores := hi.cores
  cases h with
  | lock c l hpc => exact hset s hcores ⟨(hcores c).now.lock l, (hcores c).interrupted⟩
  | interruptsEnabled c l hpc =>
    exact hset s hcores ⟨(hcores c).now.interruptsEnabled l, (hcores c).interrupted⟩
  | disableInterrupts c l was hpc =>
    exact hset s hcores ⟨(hcores c).now.disableInterrupts hpc, (hcores c).interrupted⟩
  | fetchAdd c l irq hpc =>
    exact hset _ hcores ⟨(hcores c).now.fetchAdd hpc _, (hcores c).interrupted⟩
  | spinLoop => exact hcores c
  | enter d l irq ticket hpc heq =>
    subst heq
    have hnot := hi.free_of_served hn hpc d
    refine hset s hcores ⟨(hcores d).now.enter hpc fun g hg heq => ?_, (hcores d).interrupted⟩
    have hall := List.any_eq_false.mp hnot g hg
    simp [heq] at hall
  | derefMut => exact hcores c
  | drop c g gs hpc hg =>
    exact hset _ hcores ⟨(hcores c).now.drop hg, (hcores c).interrupted⟩
  | irqRestore c was hpc =>
    exact hset s hcores ⟨(hcores c).now.irqRestore hpc, (hcores c).interrupted⟩
  | setInterrupts c b hout =>
    exact hset s hcores ⟨(hout.withFlag b).ok, (hcores c).interrupted⟩
  | interrupt c hif =>
    refine hset s hcores ⟨Level.Outside.ok ⟨rfl, rfl⟩, fun v hv => ?_⟩
    obtain rfl | hv := List.mem_cons.mp hv
    · exact ⟨(hcores c).now, hif⟩
    · exact (hcores c).interrupted v hv
  | iret c v vs hout hint =>
    have hold : ∀ u ∈ v :: vs, u.Ok ∧ u.enabled = true := by
      rw [← hint]
      exact (hcores c).interrupted
    exact hset s hcores ⟨(hold v (by simp)).1, fun u hu => hold u (by simp [hu])⟩
  | contextSwitch c t hout =>
    exact hset s hcores ⟨((hi.parked t).2.withFlag _).ok, (hi.parked t).1.interrupted⟩

theorem Inv.step (hi : Inv s) (hn : Fintype.card ι < 2 ^ 32) (h : Step s a s') : Inv s' where
  cores := h.core_ok hi hn
  parked := h.parked_ok hi
  lined l := by
    obtain ⟨holder, line, hline⟩ := hi.lined l
    obtain heq | ⟨b, hb, -⟩ := view_step hi h l
    · exact ⟨holder, line, by rwa [heq]⟩
    · exact hline.step hn hb

theorem Reachable.inv (hn : Fintype.card ι < 2 ^ 32) (h : Reachable s) : Inv s := by
  obtain ⟨s₀, hboot, hrun⟩ := h
  exact hrun.invariant Inv hboot.inv fun _ _ _ hi _ hs => hi.step hn hs

end run

end machine

end StarOs.Kernel.Sync
