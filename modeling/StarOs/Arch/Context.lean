import StarOs.Library.Run
import StarOs.Library.X86

/-! Switching between tasks: the instructions that save one context and load another, the first
frame of a new task, and what every task finds when it is switched back to, whatever the others
did in between. -/

namespace StarOs.Arch

open Library Library.X86

/-- Saved callee-saved registers: `RBX`, `RBP`, `R12` to `R15`, in that order, and the stack
pointer. -/
structure CpuContext where
  regs : Vector Word 6
  rsp : Word

/-- As the fields lie in memory. -/
def CpuContext.words (c : CpuContext) : List Word := c.regs.toList ++ [c.rsp]

/-- The size of a context. -/
def contextBytes : ℕ := 56

/-- `__context_switch` as far as `ret`, with the offsets `OFF_RBX` to `OFF_RSP`. -/
def contextSwitchInstrs : List Instr :=
  [.store .rdi 0 .rbx, .store .rdi 8 .rbp, .store .rdi 16 .r12, .store .rdi 24 .r13,
    .store .rdi 32 .r14, .store .rdi 40 .r15, .store .rdi 48 .rsp,
    .load .rbx .rsi 0, .load .rbp .rsi 8, .load .r12 .rsi 16, .load .r13 .rsi 24,
    .load .r14 .rsi 32, .load .r15 .rsi 40, .load .rsp .rsi 48]

def contextSwitch (s : Cpu) : Cpu := (s.execs contextSwitchInstrs).ret

/-- `plant`, for the words of a stack from `base`. -/
def plant (m : Memory) (base : Word) (len : ℕ) (trampoline : Word) : Option (Memory × Word) :=
  let bytes := len * 8
  if 2 ^ 64 ≤ bytes then none
  else if 2 ^ 64 ≤ base.toNat + bytes then none
  else
    let top := (base.toNat + bytes) / 16 * 16
    if top < base.toNat + 8 then none
    else
      let rsp := top - 8
      let index := (rsp - base.toNat) / 8
      if index < len then
        some (store m (base + BitVec.ofNat 64 (8 * index)) trampoline, BitVec.ofNat 64 rsp)
      else none

/-- `CpuContext::init`. -/
def CpuContext.init (m : Memory) (entry base : Word) (len : ℕ) (trampoline : Word) :
    Option (Memory × CpuContext) :=
  (plant m base len trampoline).map fun p => (p.1, ⟨#v[entry, 0, 0, 0, 0, 0], p.2⟩)

/-- `__task_trampoline` from the return of `staros_post_switch` to the entry function, with the
address that `call rbx` pushes. -/
def taskTrampoline (after : Word) (s : Cpu) : Cpu :=
  { (s.exec .sti).push after with rip := s.regs .rbx }

/-! ### One switch -/

section switch

variable {s : Cpu} {c : CpuContext} {rip : Word}

/-- The registers of a context, as the block holds them. -/
def contextRegs : List Reg := calleeSaved ++ [.rsp]

theorem contextSwitch_eq (s : Cpu) : contextSwitch s =
    ((s.execs (storesFrom .rdi 0 contextRegs)).execs (loadsFrom .rsi 0 contextRegs)).ret := by
  rw [← Cpu.execs_append]
  rfl

/-- The context that is saved holds what the callee must bring back, and the memory beside it is
as it was. -/
theorem contextSwitch_saves (s : Cpu) :
    Holds (contextSwitch s).mem (s.regs .rdi) (contextRegs.map s.regs) ∧
      Within s.mem (contextSwitch s).mem (s.regs .rdi) contextBytes := by
  have hmem : (contextSwitch s).mem = (s.execs (storesFrom .rdi 0 contextRegs)).mem := by
    rw [contextSwitch_eq, Cpu.ret_mem, Cpu.loadsFrom_mem]
  have hholds := s.storesFrom_holds .rdi 0 contextRegs (by decide)
  have hwithin := s.storesFrom_within .rdi 0 contextRegs
  rw [Nat.mul_zero, BitVec.add_zero] at hholds hwithin
  rw [hmem]
  exact ⟨hholds, hwithin⟩

/-- The processor goes on where the other context was left. -/
theorem contextSwitch_loads (h : Holds s.mem (s.regs .rsi) c.words) (hret : load s.mem c.rsp = rip)
    (hblock : Apart (s.regs .rsi) contextBytes (s.regs .rdi) contextBytes)
    (hstack : Apart (s.regs .rdi) contextBytes c.rsp 8) :
    calleeSaved.map (contextSwitch s).regs = c.regs.toList ∧
      (contextSwitch s).rsp = c.rsp + 8 ∧ (contextSwitch s).rip = rip := by
  have hwithin := s.storesFrom_within .rdi 0 contextRegs
  have hregs := s.storesFrom_regs .rdi 0 contextRegs
  rw [contextSwitch_eq]
  obtain ⟨stored, hstored⟩ : ∃ x, x = s.execs (storesFrom .rdi 0 contextRegs) := ⟨_, rfl⟩
  rw [← hstored] at hwithin hregs ⊢
  rw [Nat.mul_zero, BitVec.add_zero] at hwithin
  have hlen : c.words.length = contextRegs.length := by
    simp [CpuContext.words, contextRegs, calleeSaved]
  have hctx : Holds stored.mem (stored.regs .rsi + BitVec.ofNat 64 (8 * 0)) c.words := by
    rw [Nat.mul_zero, BitVec.add_zero, hregs]
    exact h.within hwithin (by rw [hlen]; exact hblock)
  have hmap := Cpu.loadsFrom_map (by decide) (by decide) hctx hlen
  have hmem := stored.loadsFrom_mem .rsi 0 contextRegs
  obtain ⟨loaded, hloaded⟩ : ∃ x, x = stored.execs (loadsFrom .rsi 0 contextRegs) := ⟨_, rfl⟩
  rw [← hloaded] at hmap hmem ⊢
  rw [contextRegs, List.map_append, CpuContext.words] at hmap
  obtain ⟨hsaved, hrsp⟩ := List.append_inj hmap (by simp [calleeSaved])
  have hrsp : loaded.rsp = c.rsp := (List.cons.inj hrsp).1
  refine ⟨?_, ?_, ?_⟩
  · rw [← hsaved]
    refine List.map_congr_left fun r hr => Cpu.ret_regs_of_ne ?_
    revert r
    decide
  · rw [Cpu.ret_rsp, hrsp]
  · rw [Cpu.ret_rip, hmem, hrsp, ← hret]
    exact hwithin.load hstack.symm

end switch

/-! ### Any number of tasks -/

/-- One core and the task it runs; `ctx` says where the context of each task lies. -/
structure Coroutines (τ : Type) where
  cpu : Cpu
  current : τ

inductive SwitchAct (τ : Type) where
  | run
  | switch (next : τ)

section tasks

variable {τ : Type} {ctx : τ → Word} {s s' s₁ s₂ : Coroutines τ} {t u : τ} {c : CpuContext}
  {rip : Word}

/-- What a task that is switched away from leaves in memory is untouched: its context, and the
word on its stack that the switch back will return through. -/
def Untouched (ctx : τ → Word) (t : τ) (m m' : Memory) : Prop :=
  (∀ i < 7, load m' (ctx t + BitVec.ofNat 64 (8 * i)) = load m (ctx t + BitVec.ofNat 64 (8 * i))) ∧
    load m' (load m (ctx t + 48)) = load m (load m (ctx t + 48))

/-- The task that runs may do anything to the processor and to memory, short of what the others
have left there; it switches by the stub, on a stack that is no context. -/
inductive Coroutines.Step (ctx : τ → Word) (s : Coroutines τ) :
    SwitchAct τ → Coroutines τ → Prop where
  | run (cpu : Cpu) (h : ∀ t, t ≠ s.current → Untouched ctx t s.cpu.mem cpu.mem) :
      Step ctx s .run { s with cpu := cpu }
  | switch (next : τ) (hne : next ≠ s.current) (hprev : s.cpu.regs .rdi = ctx s.current)
      (hnext : s.cpu.regs .rsi = ctx next)
      (hstack : ∀ t, Apart (ctx t) contextBytes s.cpu.rsp 8) :
      Step ctx s (.switch next) ⟨contextSwitch s.cpu, next⟩

/-- The task `t` was left with the registers of `c` and will go on at `rip`. -/
structure Suspended (ctx : τ → Word) (t : τ) (c : CpuContext) (rip : Word) (s : Coroutines τ) :
    Prop where
  away : s.current ≠ t
  block : Holds s.cpu.mem (ctx t) c.words
  ret : load s.cpu.mem c.rsp = rip
  apart : ∀ u, Apart (ctx u) contextBytes c.rsp 8

theorem CpuContext.words_rsp (c : CpuContext) : c.words[6]? = some c.rsp := by
  have hlen : c.regs.toList.length = 6 := by simp
  rw [words, List.getElem?_append_right (by omega), hlen]
  rfl

/-- Whatever the others do, a task stays as it was left until it is switched to. -/
theorem Suspended.step (hctx : ∀ t u, t ≠ u → Apart (ctx t) contextBytes (ctx u) contextBytes)
    (h : Suspended ctx t c rip s) {a : SwitchAct τ} (hs : s.Step ctx a s')
    (ha : a ≠ .switch t) : Suspended ctx t c rip s' := by
  have hlen : 8 * c.words.length = contextBytes := by simp [CpuContext.words, contextBytes]
  cases hs with
  | run cpu hrun =>
    obtain ⟨hblock, hret⟩ := hrun t h.away.symm
    have hrsp : load s.cpu.mem (ctx t + 48) = c.rsp := h.block 6 c.rsp c.words_rsp
    rw [hrsp, h.ret] at hret
    refine ⟨h.away, fun i w hw => ?_, hret, h.apart⟩
    obtain ⟨hi, -⟩ := List.getElem?_eq_some_iff.mp hw
    have hi : i < 7 := by
      unfold contextBytes at hlen
      omega
    exact (hblock i hi).trans (h.block i w hw)
  | switch next hne hprev hnext hstack =>
    obtain ⟨-, hwithin⟩ := contextSwitch_saves s.cpu
    rw [hprev] at hwithin
    refine ⟨fun heq => ha (congrArg SwitchAct.switch heq), ?_, ?_, h.apart⟩
    · refine h.block.within hwithin ?_
      rw [hlen]
      exact hctx t s.current h.away.symm
    · exact (hwithin.load (h.apart s.current).symm).trans h.ret

theorem Suspended.run (hctx : ∀ t u, t ≠ u → Apart (ctx t) contextBytes (ctx u) contextBytes)
    (h : Suspended ctx t c rip s) (hr : Run (Coroutines.Step ctx) (· ≠ .switch t) s s') :
    Suspended ctx t c rip s' :=
  hr.invariant (Suspended ctx t c rip) h fun _ _ _ hi ha hs => hi.step hctx hs ha

/-- The switch back. -/
theorem Suspended.resume (hctx : ∀ t u, t ≠ u → Apart (ctx t) contextBytes (ctx u) contextBytes)
    (h : Suspended ctx t c rip s) (hs : s.Step ctx (.switch t) s') :
    s'.current = t ∧ calleeSaved.map s'.cpu.regs = c.regs.toList ∧ s'.cpu.rsp = c.rsp + 8 ∧
      s'.cpu.rip = rip := by
  cases hs with
  | switch _ hne hprev hnext hstack =>
    refine ⟨rfl, contextSwitch_loads (by rw [hnext]; exact h.block) h.ret ?_ ?_⟩
    · rw [hnext, hprev]
      exact hctx t s.current hne
    · rw [hprev]
      exact h.apart s.current

/-- Switching away leaves the task as it was. -/
theorem suspended_of_switch (hs : s.Step ctx (.switch u) s') :
    Suspended ctx s.current ⟨⟨(calleeSaved.map s.cpu.regs).toArray, rfl⟩, s.cpu.rsp⟩
      (load s.cpu.mem s.cpu.rsp) s' := by
  cases hs with
  | switch _ hne hprev hnext hstack =>
    obtain ⟨hholds, hwithin⟩ := contextSwitch_saves s.cpu
    rw [hprev] at hholds hwithin
    exact ⟨hne, hholds, hwithin.load (hstack s.current).symm, hstack⟩

/-- For the task that calls it, the switch is a call that returns: with its callee-saved
registers, to its return address and on its stack, however many other tasks have run and
switched among each other until then. -/
theorem switch_returns (hctx : ∀ t u, t ≠ u → Apart (ctx t) contextBytes (ctx u) contextBytes)
    (haway : s.Step ctx (.switch u) s₁)
    (hr : Run (Coroutines.Step ctx) (· ≠ .switch s.current) s₁ s₂)
    (hback : s₂.Step ctx (.switch s.current) s') :
    s'.current = s.current ∧ (∀ r ∈ calleeSaved, s'.cpu.regs r = s.cpu.regs r) ∧
      s'.cpu.rsp = s.cpu.rsp + 8 ∧ s'.cpu.rip = load s.cpu.mem s.cpu.rsp := by
  obtain ⟨hcur, hregs, hrsp, hrip⟩ := ((suspended_of_switch haway).run hctx hr).resume hctx hback
  exact ⟨hcur, List.map_inj_left.mp hregs, hrsp, hrip⟩

/-- Two contexts, and registers that switch from the first to the second. -/
def twoContexts : Bool → Word
  | false => 0x1000
  | true => 0x2000

/-- `rdi`, `rsi` and `rsp` for a switch between the contexts, the stack beside them. -/
def switching (t u : Bool) (m : Memory) : Cpu :=
  ⟨fun r => if r = .rdi then twoContexts t else if r = .rsi then twoContexts u else 0x9000,
    m, 0, 0, 0, 0, 0, 0⟩

theorem twoContexts_apart (t u : Bool) (h : t ≠ u) :
    Apart (twoContexts t) contextBytes (twoContexts u) contextBytes := by
  revert t u
  decide

theorem switching_step (t u : Bool) (m : Memory) (h : u ≠ t) :
    Coroutines.Step twoContexts ⟨switching t u m, t⟩ (.switch u)
      ⟨contextSwitch (switching t u m), u⟩ :=
  .switch u h rfl rfl fun v => by
    show Apart (twoContexts v) contextBytes 0x9000 8
    revert v
    decide

/-- There, a turn of the second task, and back. -/
theorem switch_returns_two : ∃ s : Coroutines Bool, s.current = false ∧ s.cpu.rsp = 0x9008 := by
  let m := (contextSwitch (switching false true fun _ => 0)).mem
  have hrun : Coroutines.Step twoContexts ⟨contextSwitch (switching false true fun _ => 0), true⟩
      .run ⟨switching true false m, true⟩ :=
    .run (switching true false m) fun _ _ => ⟨fun _ _ => rfl, rfl⟩
  have hback := switch_returns twoContexts_apart (switching_step false true _ (by decide))
    (.single (by simp) hrun) (switching_step true false m (by decide))
  exact ⟨_, rfl, hback.2.2.1⟩

/-! ### A new task -/

variable {m m' : Memory} {entry base trampoline ret rsp : Word} {len : ℕ}

/-- Where `plant` succeeds the word lies inside the stack, at the highest address that leaves the
stack pointer aligned once `ret` has taken it. -/
theorem plant_spec (hbase : base.toNat % 8 = 0)
    (h : plant m base len trampoline = some (m', rsp)) :
    m' = store m rsp trampoline ∧ base.toNat ≤ rsp.toNat ∧
      rsp.toNat + 8 ≤ base.toNat + len * 8 ∧ base.toNat + len * 8 < rsp.toNat + 24 ∧
      rsp.toNat % 16 = 8 := by
  unfold plant at h
  simp only at h
  split at h
  · cases h
  · split at h
    · cases h
    · split at h
      · cases h
      · split at h
        · simp only [Option.some.injEq, Prod.mk.injEq] at h
          obtain ⟨rfl, rfl⟩ := h
          have haddr : base + BitVec.ofNat 64
              (8 * (((base.toNat + len * 8) / 16 * 16 - 8 - base.toNat) / 8)) =
              BitVec.ofNat 64 ((base.toNat + len * 8) / 16 * 16 - 8) := by
            apply BitVec.eq_of_toNat_eq
            simp only [BitVec.toNat_add, BitVec.toNat_ofNat]
            omega
          rw [haddr]
          simp only [BitVec.toNat_ofNat, true_and]
          omega
        · cases h

/-- And it succeeds wherever there is such an address. -/
theorem plant_isSome_iff (hbase : base.toNat % 8 = 0) :
    (plant m base len trampoline).isSome ↔ base.toNat + len * 8 < 2 ^ 64 ∧
      base.toNat + 8 ≤ (base.toNat + len * 8) / 16 * 16 := by
  unfold plant
  simp only
  split
  · simp
    omega
  · split
    · simp
      omega
    · split
      · simp
        omega
      · split
        · simp
          omega
        · simp
          omega

/-- A new task that is switched to for the first time, whatever ran before, starts in the
trampoline, and this enters its function on its own stack, with interrupts on and the stack
aligned as a function expects. -/
theorem fresh_starts (hctx : ∀ t u, t ≠ u → Apart (ctx t) contextBytes (ctx u) contextBytes)
    (hbase : base.toNat % 8 = 0)
    (hinit : CpuContext.init m entry base len trampoline = some (m', c))
    (hstack : ∀ u, Apart (ctx u) contextBytes base (len * 8)) (haway : s.current ≠ t)
    (hblock : Holds s.cpu.mem (ctx t) c.words) (hmem : Within m' s.cpu.mem (ctx t) contextBytes)
    (hr : Run (Coroutines.Step ctx) (· ≠ .switch t) s s₁) (hs : s₁.Step ctx (.switch t) s₂)
    {x : Cpu} (hrsp : x.rsp = s₂.cpu.rsp) (hsaved : ∀ r ∈ calleeSaved, x.regs r = s₂.cpu.regs r) :
    s₂.cpu.rip = trampoline ∧ s₂.cpu.rsp.toNat % 16 = 0 ∧ (taskTrampoline ret x).rip = entry ∧
      (taskTrampoline ret x).rsp.toNat % 16 = 8 ∧
      (taskTrampoline ret x).rflags &&& flagIF = flagIF ∧
      base.toNat ≤ (taskTrampoline ret x).rsp.toNat ∧
      (taskTrampoline ret x).rsp.toNat + 8 ≤ base.toNat + len * 8 := by
  obtain ⟨⟨m₁, rsp₁⟩, hplant, heq⟩ := Option.map_eq_some_iff.mp hinit
  obtain ⟨rfl, rfl⟩ := Prod.mk.inj heq
  obtain ⟨rfl, hlow, hhigh, -, hmod⟩ := plant_spec hbase hplant
  have hword (u : τ) : Apart (ctx u) contextBytes rsp₁ 8 := by
    have hu := hstack u
    have hlt := (ctx u).isLt
    unfold Apart at hu ⊢
    simp only [BitVec.toNat_sub] at hu ⊢
    unfold contextBytes at hu ⊢
    omega
  have hsusp : Suspended ctx t ⟨#v[entry, 0, 0, 0, 0, 0], rsp₁⟩ trampoline s :=
    ⟨haway, hblock, (hmem.load (hword t).symm).trans (load_store_same ..), hword⟩
  obtain ⟨-, hregs, hrsp₂, hrip⟩ := (hsusp.run hctx hr).resume hctx hs
  have hrbx : s₂.cpu.regs .rbx = entry := (List.cons.inj hregs).1
  have hback : (taskTrampoline ret x).rsp = rsp₁ := by
    refine Eq.trans (Cpu.push_rsp (s := x.exec .sti) (v := ret)) ?_
    show x.rsp - 8 = rsp₁
    rw [hrsp, hrsp₂, BitVec.add_sub_cancel]
  have hlt := rsp₁.isLt
  refine ⟨hrip, ?_, (hsaved .rbx (by decide)).trans hrbx, by rw [hback]; exact hmod, ?_,
    by rwa [hback], by rwa [hback]⟩
  · rw [hrsp₂]
    simp only [BitVec.toNat_add, BitVec.ofNat_eq_ofNat, BitVec.toNat_ofNat, Nat.reducePow,
      Nat.reduceMod]
    omega
  · show (x.rflags ||| flagIF) &&& flagIF = flagIF
    ext i hi
    simp only [BitVec.getElem_and, BitVec.getElem_or]
    cases flagIF[i] <;> simp

/-- Registers as `init` leaves a context for the entry `0x500000`, stored at `0x2000`. -/
def stored : Cpu :=
  ⟨fun r => if r = .rdi then 0x2000 else if r = .rbx then 0x500000
    else if r = .rsp then 0x8018 else 0, store (fun _ => 0) 0x8018 0x400000, 0, 0, 0, 0, 0, 0⟩

def fresh : Memory := (stored.execs (storesFrom .rdi 0 contextRegs)).mem

theorem fresh_block : Holds fresh 0x2000 [0x500000, 0, 0, 0, 0, 0, 0x8018] :=
  stored.storesFrom_holds .rdi 0 contextRegs (by decide)

theorem fresh_within : Within stored.mem fresh 0x2000 contextBytes :=
  stored.storesFrom_within .rdi 0 contextRegs

/-- A stack of four words at `0x8000`, and a task that is switched to at once. -/
theorem fresh_starts_four :
    (taskTrampoline 0 (contextSwitch (switching false true fresh))).rip = 0x500000 := by
  have hinit : CpuContext.init (fun _ => 0) 0x500000 0x8000 4 0x400000 =
      some (stored.mem, ⟨#v[0x500000, 0, 0, 0, 0, 0], 0x8018⟩) := rfl
  have hstack (u : Bool) : Apart (twoContexts u) contextBytes 0x8000 (4 * 8) := by
    revert u
    decide
  have hstep := switching_step false true fresh (by decide)
  have hblock : Holds (Coroutines.mk (switching false true fresh) false).cpu.mem
      (twoContexts true) (CpuContext.mk #v[0x500000, 0, 0, 0, 0, 0] 0x8018).words := fresh_block
  exact (fresh_starts twoContexts_apart (by decide) hinit hstack (by decide) hblock fresh_within
    .refl hstep (x := contextSwitch (switching false true fresh)) rfl fun _ _ => rfl).2.2.1

end tasks

end StarOs.Arch
