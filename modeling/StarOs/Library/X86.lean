import Mathlib.Algebra.Group.Nat.Defs
import Mathlib.Logic.Function.Basic
import Mathlib.Tactic.Common

/-! The part of an x86-64 processor that the entry and exit stubs of a kernel are written in:
memory of bytes, sixteen registers, the stack instructions, the `gs` base and the ways of leaving
a privilege level. Pushes and pops are seen through the list of words that a stretch of memory
holds. -/

namespace StarOs.Library.X86

abbrev Word := BitVec 64

abbrev Memory := Word → BitVec 8

/-! ### Memory -/

/-- The eight bytes at `a`, the lowest first. -/
def load (m : Memory) (a : Word) : Word := BitVec.ofNat 64 <|
  (m a).toNat + 256 * ((m (a + 1)).toNat + 256 * ((m (a + 2)).toNat + 256 * ((m (a + 3)).toNat +
    256 * ((m (a + 4)).toNat + 256 * ((m (a + 5)).toNat + 256 * ((m (a + 6)).toNat +
      256 * (m (a + 7)).toNat))))))

def store (m : Memory) (a v : Word) : Memory := fun x =>
  if (x - a).toNat < 8 then BitVec.ofNat 8 (v.toNat / 256 ^ (x - a).toNat) else m x

/-- `n` bytes from `a` and `k` bytes from `b` have none in common. -/
def Apart (a : Word) (n : ℕ) (b : Word) (k : ℕ) : Prop := n ≤ (b - a).toNat ∧ k ≤ (a - b).toNat

instance {a b : Word} {n k : ℕ} : Decidable (Apart a n b k) := inferInstanceAs (Decidable (_ ∧ _))

/-- The words from `a` on. -/
def Holds (m : Memory) (a : Word) (ws : List Word) : Prop :=
  ∀ i w, ws[i]? = some w → load m (a + BitVec.ofNat 64 (8 * i)) = w

/-- Nothing but the `n` bytes from `a` differs. -/
def Within (m m' : Memory) (a : Word) (n : ℕ) : Prop := ∀ x, n ≤ (x - a).toNat → m' x = m x

section memory

variable {m m' : Memory} {a b v w : Word} {n k i : ℕ} {ws us : List Word}

theorem store_at (m : Memory) (a v k : Word) (hk : k.toNat < 8) :
    (store m a v (a + k)).toNat = v.toNat / 256 ^ k.toNat % 256 := by
  have hsub : a + k - a = k := by rw [BitVec.add_comm, BitVec.add_sub_cancel]
  simp [store, hsub, hk]

theorem store_of_le (m : Memory) (v : Word) {x : Word} (h : 8 ≤ (x - a).toNat) :
    store m a v x = m x := if_neg (by omega)

@[simp] theorem load_store_same (m : Memory) (a v : Word) : load (store m a v) a = v := by
  have hat := store_at m a v
  have h0 : (store m a v a).toNat = v.toNat % 256 := by simpa using hat 0 (by decide)
  apply BitVec.eq_of_toNat_eq
  rw [load, h0, hat 1 (by decide), hat 2 (by decide), hat 3 (by decide), hat 4 (by decide),
    hat 5 (by decide), hat 6 (by decide), hat 7 (by decide), BitVec.toNat_ofNat]
  have hlt := v.isLt
  simp only [BitVec.ofNat_eq_ofNat, BitVec.toNat_ofNat, Nat.reducePow, Nat.reduceMod]
  omega

theorem load_congr (h : ∀ k : Word, k.toNat < 8 → m' (a + k) = m (a + k)) :
    load m' a = load m a := by
  have h0 : m' a = m a := by simpa using h 0 (by decide)
  rw [load, load, h0, h 1 (by decide), h 2 (by decide), h 3 (by decide), h 4 (by decide),
    h 5 (by decide), h 6 (by decide), h 7 (by decide)]

theorem Apart.symm (h : Apart a n b k) : Apart b k a n := ⟨h.2, h.1⟩

/-- A word inside the first stretch is apart from the second. -/
theorem Apart.word (h : Apart a n b k) (hi : 8 * i + 8 ≤ n) :
    Apart (a + BitVec.ofNat 64 (8 * i)) 8 b k := by
  unfold Apart at *
  simp only [BitVec.toNat_sub, BitVec.toNat_add, BitVec.toNat_ofNat] at *
  have ha := a.isLt
  have hb := b.isLt
  omega

theorem Apart.load_store (h : Apart a 8 b 8) (v : Word) : load (store m b v) a = load m a := by
  refine load_congr fun k hk => store_of_le m v ?_
  unfold Apart at h
  simp only [BitVec.toNat_sub, BitVec.toNat_add] at *
  have ha := a.isLt
  have hb := b.isLt
  omega

theorem Within.refl : Within m m a n := fun _ _ => rfl

theorem Within.load (h : Within m m' b k) (ha : Apart a 8 b k) :
    X86.load m' a = X86.load m a := by
  refine load_congr fun j hj => h _ ?_
  unfold Apart at ha
  simp only [BitVec.toNat_sub, BitVec.toNat_add] at *
  have ha' := a.isLt
  have hb := b.isLt
  omega

theorem within_store (m : Memory) (a v : Word) : Within m (store m a v) a 8 :=
  fun _ h => store_of_le m v h

/-- Two changes, the second right below the first. -/
theorem Within.below {m'' : Memory} (h : Within m m' (a + BitVec.ofNat 64 k) n)
    (h' : Within m' m'' a k) (hroom : k + n < 2 ^ 64) : Within m m'' a (k + n) := by
  intro x hx
  rw [h' x (by omega)]
  refine h x ?_
  have ha := a.isLt
  have hlt := x.isLt
  simp only [BitVec.toNat_sub, BitVec.toNat_add, BitVec.toNat_ofNat] at *
  omega

/-- What follows a word is apart from it. -/
theorem apart_next (h : 8 + n ≤ 2 ^ 64) : Apart a 8 (a + 8) n := by
  have hlt := a.isLt
  unfold Apart
  simp only [BitVec.toNat_sub, BitVec.toNat_add, BitVec.ofNat_eq_ofNat, BitVec.toNat_ofNat,
    Nat.reducePow, Nat.reduceMod]
  omega

@[simp] theorem holds_nil : Holds m a [] := fun i w h => by simp at h

theorem holds_cons : Holds m a (w :: ws) ↔ load m a = w ∧ Holds m (a + 8) ws := by
  have hadd (i : ℕ) : a + BitVec.ofNat 64 (8 * (i + 1)) = a + 8 + BitVec.ofNat 64 (8 * i) := by
    rw [show 8 * (i + 1) = 8 + 8 * i by omega, BitVec.ofNat_add, ← BitVec.add_assoc]
    rfl
  constructor
  · intro h
    refine ⟨by simpa using h 0 w rfl, fun i u hu => ?_⟩
    rw [← hadd]
    exact h (i + 1) u (by simpa using hu)
  · rintro ⟨hw, hrest⟩ i u hu
    cases i with
    | zero => simpa [hw] using hu
    | succ i =>
      rw [hadd]
      exact hrest i u (by simpa using hu)

theorem Holds.of_append (h : Holds m a (ws ++ us)) : Holds m a ws := by
  intro i w hw
  obtain ⟨hlt, -⟩ := List.getElem?_eq_some_iff.mp hw
  exact h i w (by rwa [List.getElem?_append_left hlt])

/-- What lies apart from the change is as it was. -/
theorem Holds.within (h : Holds m a ws) (hm : Within m m' b k)
    (hab : Apart a (8 * ws.length) b k) : Holds m' a ws := by
  intro i w hw
  obtain ⟨hlt, -⟩ := List.getElem?_eq_some_iff.mp hw
  rw [hm.load (hab.word (by omega))]
  exact h i w hw

end memory

/-! ### The processor -/

inductive Reg where
  | rax | rbx | rcx | rdx | rsi | rdi | rbp | rsp
  | r8 | r9 | r10 | r11 | r12 | r13 | r14 | r15
  deriving DecidableEq

structure Cpu where
  regs : Reg → Word
  mem : Memory
  rip : Word
  rflags : Word
  cs : Word
  ss : Word
  gsBase : Word
  kernelGsBase : Word

/-- Instructions that go on to the next one. What the arithmetic ones do to the condition codes
is left out: a stub's exit loads these. -/
inductive Instr where
  | push (r : Reg)
  | pushImm (v : Word)
  | pushGs (off : Word)
  | pop (r : Reg)
  | mov (dst src : Reg)
  | load (dst base : Reg) (off : Word)
  | store (base : Reg) (off : Word) (src : Reg)
  | loadGs (dst : Reg) (off : Word)
  | storeGs (off : Word) (src : Reg)
  | add (dst : Reg) (v : Word)
  | swapgs
  | cld
  | sti
  deriving DecidableEq

/-- The registers that a System V callee brings back, besides the stack pointer. -/
def calleeSaved : List Reg := [.rbx, .rbp, .r12, .r13, .r14, .r15]

/-- Interrupt enable, `RFLAGS` bit 9. -/
def flagIF : Word := 0x200

/-- Direction, `RFLAGS` bit 10. -/
def flagDF : Word := 0x400

namespace Cpu

def rsp (s : Cpu) : Word := s.regs .rsp

def setReg (s : Cpu) (r : Reg) (v : Word) : Cpu := { s with regs := Function.update s.regs r v }

def push (s : Cpu) (v : Word) : Cpu :=
  { s.setReg .rsp (s.rsp - 8) with mem := store s.mem (s.rsp - 8) v }

/-- The stack pointer moves before the register is written, which may be the stack pointer. -/
def pop (s : Cpu) (r : Reg) : Cpu :=
  (s.setReg .rsp (s.rsp + 8)).setReg r (load s.mem s.rsp)

def exec (s : Cpu) : Instr → Cpu
  | .push r => s.push (s.regs r)
  | .pushImm v => s.push v
  | .pushGs off => s.push (load s.mem (s.gsBase + off))
  | .pop r => s.pop r
  | .mov dst src => s.setReg dst (s.regs src)
  | .load dst base off => s.setReg dst (load s.mem (s.regs base + off))
  | .store base off src => { s with mem := store s.mem (s.regs base + off) (s.regs src) }
  | .loadGs dst off => s.setReg dst (load s.mem (s.gsBase + off))
  | .storeGs off src => { s with mem := store s.mem (s.gsBase + off) (s.regs src) }
  | .add dst v => s.setReg dst (s.regs dst + v)
  | .swapgs => { s with gsBase := s.kernelGsBase, kernelGsBase := s.gsBase }
  | .cld => { s with rflags := s.rflags &&& ~~~flagDF }
  | .sti => { s with rflags := s.rflags ||| flagIF }

def execs (s : Cpu) (is : List Instr) : Cpu := is.foldl exec s

def pushes (s : Cpu) (vs : List Word) : Cpu := vs.foldl push s

def pops (s : Cpu) (rs : List Reg) : Cpu := rs.foldl pop s

/-- `cld` and `mov rdi, rsp`, before the call of a function that is handed the stack. -/
def handOver (s : Cpu) : Cpu := (s.exec .cld).exec (.mov .rdi .rsp)

/-- `ret`. -/
def ret (s : Cpu) : Cpu := { s.setReg .rsp (s.rsp + 8) with rip := load s.mem s.rsp }

/-- `iretq`, from five words on the stack. -/
def iretq (s : Cpu) : Cpu :=
  { s.setReg .rsp (load s.mem (s.rsp + 24)) with
    rip := load s.mem s.rsp
    cs := load s.mem (s.rsp + 8)
    rflags := load s.mem (s.rsp + 16)
    ss := load s.mem (s.rsp + 32) }

end Cpu

section rules

variable {s : Cpu} {r : Reg} {rs : List Reg} {vs ws us : List Word} {v w : Word}

@[simp] theorem Cpu.execs_nil : s.execs [] = s := rfl
@[simp] theorem Cpu.execs_cons (i : Instr) (is : List Instr) :
    s.execs (i :: is) = (s.exec i).execs is := rfl
theorem Cpu.execs_append (is js : List Instr) : s.execs (is ++ js) = (s.execs is).execs js :=
  List.foldl_append

@[simp] theorem Cpu.setReg_self : (s.setReg r v).regs r = v := Function.update_self ..
theorem Cpu.setReg_of_ne {q : Reg} (h : q ≠ r) : (s.setReg r v).regs q = s.regs q :=
  Function.update_of_ne h ..

@[simp] theorem Cpu.push_rsp : (s.push v).rsp = s.rsp - 8 :=
  Cpu.setReg_self (s := s) (r := .rsp)
theorem Cpu.push_regs_of_ne (h : r ≠ .rsp) : (s.push v).regs r = s.regs r := Cpu.setReg_of_ne h

@[simp] theorem Cpu.setReg_mem : (s.setReg r v).mem = s.mem := rfl
@[simp] theorem Cpu.setReg_rsp : (s.setReg .rsp v).rsp = v := Cpu.setReg_self

section handOver

variable (s)

@[simp] theorem Cpu.handOver_mem : s.handOver.mem = s.mem := rfl
@[simp] theorem Cpu.handOver_gsBase : s.handOver.gsBase = s.gsBase := rfl
@[simp] theorem Cpu.handOver_kernelGsBase : s.handOver.kernelGsBase = s.kernelGsBase := rfl
@[simp] theorem Cpu.handOver_rdi : s.handOver.regs .rdi = s.rsp :=
  Cpu.setReg_self (s := s) (r := .rdi)
theorem Cpu.handOver_regs_of_ne (h : r ≠ .rdi) : s.handOver.regs r = s.regs r :=
  Cpu.setReg_of_ne (s := s) h
@[simp] theorem Cpu.handOver_rsp : s.handOver.rsp = s.rsp := s.handOver_regs_of_ne (by decide)

end handOver

@[simp] theorem Cpu.ret_mem : s.ret.mem = s.mem := rfl
@[simp] theorem Cpu.ret_rip : s.ret.rip = load s.mem s.rsp := rfl
@[simp] theorem Cpu.ret_rsp : s.ret.rsp = s.rsp + 8 := Cpu.setReg_self (s := s) (r := .rsp)
theorem Cpu.ret_regs_of_ne (h : r ≠ .rsp) : s.ret.regs r = s.regs r := Cpu.setReg_of_ne (s := s) h

theorem Cpu.iretq_rsp : s.iretq.rsp = load s.mem (s.rsp + 24) :=
  Cpu.setReg_self (s := s) (r := .rsp)
theorem Cpu.iretq_regs_of_ne (h : r ≠ .rsp) : s.iretq.regs r = s.regs r := Cpu.setReg_of_ne h

/-- A word of the `gs` block is not the one that was pushed last. -/
theorem Cpu.push_exec_pushGs {off : Word} (h : Apart (s.gsBase + off) 8 (s.rsp - 8) 8) :
    (s.push v).exec (.pushGs off) = (s.push v).push (load s.mem (s.gsBase + off)) :=
  congrArg (s.push v).push (h.load_store v)

theorem Cpu.pushes_cons : s.pushes (v :: vs) = (s.push v).pushes vs := rfl

/-- What pushing does not touch. -/
structure Cpu.SameBut (s s' : Cpu) : Prop where
  regs : ∀ r, r ≠ .rsp → s'.regs r = s.regs r
  rip : s'.rip = s.rip
  rflags : s'.rflags = s.rflags
  cs : s'.cs = s.cs
  ss : s'.ss = s.ss
  gsBase : s'.gsBase = s.gsBase
  kernelGsBase : s'.kernelGsBase = s.kernelGsBase

theorem Cpu.pushes_same (s : Cpu) (vs : List Word) : s.SameBut (s.pushes vs) := by
  induction vs generalizing s with
  | nil => exact ⟨fun _ _ => rfl, rfl, rfl, rfl, rfl, rfl, rfl⟩
  | cons v vs ih =>
    obtain ⟨hr, h1, h2, h3, h4, h5, h6⟩ := ih (s.push v)
    exact ⟨fun r hne => (hr r hne).trans (push_regs_of_ne hne), h1, h2, h3, h4, h5, h6⟩

theorem Cpu.pushes_rsp (s : Cpu) (vs : List Word) :
    (s.pushes vs).rsp = s.rsp - BitVec.ofNat 64 (8 * vs.length) := by
  induction vs generalizing s with
  | nil => simp [pushes]
  | cons v vs ih =>
    rw [pushes_cons, ih, push_rsp, List.length_cons, Nat.mul_succ, Nat.add_comm, BitVec.ofNat_add,
      ← BitVec.sub_sub]
    rfl

/-- Pushing stays inside the bytes it takes. -/
theorem Cpu.pushes_within (s : Cpu) (vs : List Word) (hroom : 8 * vs.length < 2 ^ 64) :
    Within s.mem (s.pushes vs).mem (s.pushes vs).rsp (8 * vs.length) := by
  induction vs generalizing s with
  | nil => exact Within.refl
  | cons v vs ih =>
    intro x hx
    rw [List.length_cons] at hx hroom
    rw [pushes_cons] at hx ⊢
    rw [ih (s.push v) (by omega) x (by omega)]
    refine store_of_le s.mem v ?_
    rw [pushes_rsp, push_rsp] at hx
    have hlt := x.isLt
    have hlt' := s.rsp.isLt
    simp only [BitVec.toNat_sub, BitVec.ofNat_eq_ofNat, BitVec.toNat_ofNat] at hx ⊢
    omega

/-- The words pushed lie above each other, the last one lowest. -/
theorem Cpu.pushes_holds (s : Cpu) (vs : List Word) (hroom : 8 * (vs.length + ws.length) < 2 ^ 64)
    (h : Holds s.mem s.rsp ws) :
    Holds (s.pushes vs).mem (s.pushes vs).rsp (vs.reverse ++ ws) := by
  induction vs generalizing s ws with
  | nil => simpa [pushes] using h
  | cons v vs ih =>
    rw [List.length_cons] at hroom
    rw [pushes_cons, List.reverse_cons, List.append_assoc, List.singleton_append]
    refine ih (s.push v) (by rw [List.length_cons]; omega) (holds_cons.mpr ⟨?_, ?_⟩)
    · rw [push_rsp]
      exact load_store_same ..
    · rw [push_rsp, BitVec.sub_add_cancel]
      refine h.within (within_store s.mem (s.rsp - 8) v) ?_
      have hlt := s.rsp.isLt
      unfold Apart
      simp only [BitVec.toNat_sub, BitVec.ofNat_eq_ofNat, BitVec.toNat_ofNat]
      omega

theorem Cpu.execs_push (hrs : .rsp ∉ rs) :
    s.execs (rs.map .push) = s.pushes (rs.map s.regs) := by
  induction rs generalizing s with
  | nil => rfl
  | cons r rs ih =>
    rw [List.mem_cons, not_or] at hrs
    rw [List.map_cons, execs_cons, ih hrs.2, List.map_cons, pushes_cons]
    congr 1
    refine List.map_congr_left fun q hq => ?_
    exact push_regs_of_ne fun heq => hrs.2 (heq ▸ hq)

theorem Cpu.execs_pop : s.execs (rs.map .pop) = s.pops rs := by
  rw [execs, pops, List.foldl_map]
  rfl

theorem Cpu.pop_regs_self : (s.pop r).regs r = load s.mem s.rsp := Cpu.setReg_self

theorem Cpu.pop_rsp (h : r ≠ .rsp) : (s.pop r).rsp = s.rsp + 8 :=
  (Cpu.setReg_of_ne h.symm).trans Cpu.setReg_self

theorem Cpu.pop_regs_of_ne {q : Reg} (h : q ≠ r) (hq : q ≠ .rsp) :
    (s.pop r).regs q = s.regs q :=
  (Cpu.setReg_of_ne h).trans (Cpu.setReg_of_ne hq)

theorem Cpu.pops_cons : s.pops (r :: rs) = (s.pop r).pops rs := rfl

theorem Cpu.pops_mem : (s.pops rs).mem = s.mem := by
  induction rs generalizing s with
  | nil => rfl
  | cons r rs ih => rw [pops_cons, ih]; rfl

theorem Cpu.pops_gs :
    (s.pops rs).gsBase = s.gsBase ∧ (s.pops rs).kernelGsBase = s.kernelGsBase := by
  induction rs generalizing s with
  | nil => exact ⟨rfl, rfl⟩
  | cons r rs ih => exact ih (s := s.pop r)

theorem Cpu.pops_rsp (hrs : .rsp ∉ rs) :
    (s.pops rs).rsp = s.rsp + BitVec.ofNat 64 (8 * rs.length) := by
  induction rs generalizing s with
  | nil => simp [pops]
  | cons r rs ih =>
    rw [List.mem_cons, not_or] at hrs
    rw [pops_cons, ih hrs.2, pop_rsp (Ne.symm hrs.1), List.length_cons, Nat.mul_succ, Nat.add_comm,
      BitVec.ofNat_add, ← BitVec.add_assoc]
    rfl

theorem Cpu.pops_regs_of_notMem {q : Reg} (hq : q ∉ rs) (hne : q ≠ .rsp) :
    (s.pops rs).regs q = s.regs q := by
  induction rs generalizing s with
  | nil => rfl
  | cons r rs ih =>
    rw [List.mem_cons, not_or] at hq
    rw [pops_cons, ih hq.2, pop_regs_of_ne hq.1 hne]

/-- Popping reads the words from the lowest up. -/
theorem Cpu.pops_regs (hrs : .rsp ∉ rs) (hnd : rs.Nodup) (h : Holds s.mem s.rsp ws) {i : ℕ}
    (hr : rs[i]? = some r) (hw : ws[i]? = some w) : (s.pops rs).regs r = w := by
  induction rs generalizing s ws i with
  | nil => simp at hr
  | cons q rs ih =>
    rw [List.mem_cons, not_or] at hrs
    obtain ⟨hq, hnd⟩ := List.nodup_cons.mp hnd
    cases ws with
    | nil => simp at hw
    | cons u ws =>
      obtain ⟨hu, hrest⟩ := holds_cons.mp h
      cases i with
      | zero =>
        obtain rfl : q = r := by simpa using hr
        obtain rfl : u = w := by simpa using hw
        rw [pops_cons, pops_regs_of_notMem hq (Ne.symm hrs.1), pop_regs_self, hu]
      | succ i =>
        have hnext : Holds (s.pop q).mem (s.pop q).rsp ws := by
          rw [pop_rsp (Ne.symm hrs.1)]
          exact hrest
        exact ih hrs.2 hnd hnext (by simpa using hr) (by simpa using hw)

/-- The registers that were popped, read together. -/
theorem Cpu.pops_map (us : List Word) (hrs : .rsp ∉ rs) (hnd : rs.Nodup)
    (h : Holds s.mem s.rsp (ws ++ us))
    (hlen : ws.length = rs.length) : rs.map (s.pops rs).regs = ws := by
  refine List.ext_getElem (by simp [hlen]) fun i hi hi' => ?_
  have hr : i < rs.length := by rwa [List.length_map] at hi
  rw [List.getElem_map]
  exact pops_regs hrs hnd h.of_append (List.getElem?_eq_getElem hr) (List.getElem?_eq_getElem hi')

end rules

/-! ### Registers in a block of memory -/

/-- `mov [b + 8 * i], r` for the registers in turn. -/
def storesFrom (b : Reg) : ℕ → List Reg → List Instr
  | _, [] => []
  | i, r :: rs => .store b (BitVec.ofNat 64 (8 * i)) r :: storesFrom b (i + 1) rs

/-- `mov r, [b + 8 * i]` for the registers in turn. -/
def loadsFrom (b : Reg) : ℕ → List Reg → List Instr
  | _, [] => []
  | i, r :: rs => .load r b (BitVec.ofNat 64 (8 * i)) :: loadsFrom b (i + 1) rs

section blocks

variable {s : Cpu} {b r : Reg} {rs : List Reg} {ws : List Word} {w : Word} {i j : ℕ}

theorem Cpu.storesFrom_regs (s : Cpu) (b : Reg) (i : ℕ) (rs : List Reg) :
    (s.execs (storesFrom b i rs)).regs = s.regs := by
  induction rs generalizing s i with
  | nil => rfl
  | cons r rs ih => exact ih (s.exec (.store b (BitVec.ofNat 64 (8 * i)) r)) (i + 1)

theorem add_ofNat_succ (a : Word) (i : ℕ) :
    a + BitVec.ofNat 64 (8 * (i + 1)) = a + BitVec.ofNat 64 (8 * i) + 8 := by
  rw [Nat.mul_succ, BitVec.ofNat_add, ← BitVec.add_assoc]
  rfl

theorem Cpu.storesFrom_within (s : Cpu) (b : Reg) (i : ℕ) (rs : List Reg) :
    Within s.mem (s.execs (storesFrom b i rs)).mem (s.regs b + BitVec.ofNat 64 (8 * i))
      (8 * rs.length) := by
  induction rs generalizing s i with
  | nil => exact Within.refl
  | cons r rs ih =>
    rw [List.length_cons]
    intro x hx
    have hrest := ih (s.exec (.store b (BitVec.ofNat 64 (8 * i)) r)) (i + 1) x
    rw [add_ofNat_succ] at hrest
    refine (hrest ?_).trans (store_of_le s.mem (s.regs r) (by omega))
    show 8 * rs.length ≤ (x - (s.regs b + BitVec.ofNat 64 (8 * i) + 8)).toNat
    have hlt := x.isLt
    have hlt' := (s.regs b + BitVec.ofNat 64 (8 * i)).isLt
    rw [← BitVec.sub_sub, BitVec.toNat_sub]
    simp only [BitVec.ofNat_eq_ofNat, BitVec.toNat_ofNat, Nat.reducePow, Nat.reduceMod] at hx ⊢
    omega

/-- The registers stand in the block one behind the other. -/
theorem Cpu.storesFrom_holds (s : Cpu) (b : Reg) (i : ℕ) (rs : List Reg)
    (hroom : 8 * rs.length ≤ 2 ^ 64) :
    Holds (s.execs (storesFrom b i rs)).mem (s.regs b + BitVec.ofNat 64 (8 * i))
      (rs.map s.regs) := by
  induction rs generalizing s i with
  | nil => exact holds_nil
  | cons r rs ih =>
    rw [List.length_cons] at hroom
    let s₁ := s.exec (.store b (BitVec.ofNat 64 (8 * i)) r)
    have hwithin := s₁.storesFrom_within b (i + 1) rs
    have hrest := ih s₁ (i + 1) (by omega)
    rw [add_ofNat_succ] at hwithin hrest
    refine holds_cons.mpr ⟨?_, hrest⟩
    refine (hwithin.load ?_).trans (load_store_same ..)
    exact apart_next (by omega)

theorem Cpu.loadsFrom_mem (s : Cpu) (b : Reg) (i : ℕ) (rs : List Reg) :
    (s.execs (loadsFrom b i rs)).mem = s.mem := by
  induction rs generalizing s i with
  | nil => rfl
  | cons r rs ih => exact ih (s.exec (.load r b (BitVec.ofNat 64 (8 * i)))) (i + 1)

theorem Cpu.loadsFrom_regs_of_notMem (h : r ∉ rs) :
    (s.execs (loadsFrom b i rs)).regs r = s.regs r := by
  induction rs generalizing s i with
  | nil => rfl
  | cons q rs ih =>
    rw [List.mem_cons, not_or] at h
    exact (ih h.2).trans (setReg_of_ne h.1)

/-- The registers come back from the block. -/
theorem Cpu.loadsFrom_map (hb : b ∉ rs) (hnd : rs.Nodup)
    (h : Holds s.mem (s.regs b + BitVec.ofNat 64 (8 * i)) ws) (hlen : ws.length = rs.length) :
    rs.map (s.execs (loadsFrom b i rs)).regs = ws := by
  induction rs generalizing s i ws with
  | nil => exact (List.eq_nil_of_length_eq_zero hlen).symm
  | cons r rs ih =>
    rw [List.mem_cons, not_or] at hb
    obtain ⟨hr, hnd⟩ := List.nodup_cons.mp hnd
    cases ws with
    | nil => simp at hlen
    | cons w ws =>
      obtain ⟨hw, hrest⟩ := holds_cons.mp h
      have hbase : (s.exec (.load r b (BitVec.ofNat 64 (8 * i)))).regs b = s.regs b :=
        setReg_of_ne hb.1
      have hone : (s.execs (loadsFrom b i (r :: rs))).regs r = w := by
        refine (loadsFrom_regs_of_notMem hr).trans ?_
        exact setReg_self.trans hw
      rw [List.map_cons, hone]
      congr 1
      refine ih hb.2 hnd ?_ (by simpa using hlen)
      rw [hbase, add_ofNat_succ]
      exact hrest

end blocks

end StarOs.Library.X86
