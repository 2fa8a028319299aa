import StarOs.Boot.Entry
import StarOs.Kernel.MemInit

/-! From the loader's memory to the kernel's. The kernel reads the hand-off the loader wrote and
takes its heap and its frames from what the map calls usable; no page the firmware gave the loader
is among them. -/

namespace StarOs.Kernel.MemInit

open Bootinfo StarOs.Boot Library

/-- Why `kmain` does not get to `mem::init`; `unreadable` stands for a value of no enumeration. -/
inductive Rejected where
  | null
  | unreadable
  | invalid (e : BootInfoError)
  deriving DecidableEq

/-- What `init` reads of the hand-off. -/
def infoOf (info : Bootinfo.BootInfo) : MemInit.BootInfo :=
  ⟨info.memoryMapLen, info.memoryMap, info.initrd, info.initrdLen, info.kernelPhys, info.kernelLen⟩

theorem length_readArray {m : PhysMemory} {a n : ℕ} {l : List MemoryRegion}
    (h : MemoryRegion.readArray m a n = some l) : l.length = n := by
  induction n generalizing a l with
  | zero =>
    obtain rfl := Option.some.inj h
    rfl
  | succ n ih =>
    rw [MemoryRegion.readArray] at h
    split at h
    · next r rest _ hrest =>
      obtain rfl := Option.some.inj h
      rw [List.length_cons, ih hrest]
    · cases h

/-- `kmain` with the hand-off: what it reads in physical memory, and checks. -/
def receive (infoPhys : UInt64) (m : PhysMemory) : Except Rejected HandOff :=
  if infoPhys = 0 then .error .null
  else
    match BootInfo.readAt infoPhys.toNat m with
    | none => .error .unreadable
    | some info =>
      match info.validate with
      | .error e => .error (.invalid e)
      | .ok () =>
        match hmap : MemoryRegion.readArray m info.memoryMap.toNat info.memoryMapLen.toNat with
        | none => .error .unreadable
        | some map => .ok ⟨infoOf info, map, length_readArray hmap⟩

section

variable {π : Type} {P : PoolApi π} {m : PhysMemory} {infoPhys : UInt64} {hand : HandOff} {out : Taken π}

theorem receive_ok (h : receive infoPhys m = .ok hand) : ∃ info,
    BootInfo.readAt infoPhys.toNat m = some info ∧ hand.info = infoOf info ∧
      MemoryRegion.readArray m info.memoryMap.toNat info.memoryMapLen.toNat = some hand.map := by
  unfold receive at h
  split at h
  · cases h
  · split at h
    · cases h
    · next info hinfo =>
      split at h
      · cases h
      · split at h
        · cases h
        · next map hmap =>
          obtain rfl := Except.ok.inj h
          exact ⟨info, hinfo, rfl, hmap⟩

theorem receive_eq {info : Bootinfo.BootInfo} {map : List MemoryRegion}
    (hinfo : BootInfo.readAt infoPhys.toNat m = some info) (hmagic : info.magic = BootInfo.magicWord)
    (hversion : info.version = BootInfo.currentVersion)
    (harray : MemoryRegion.readArray m info.memoryMap.toNat info.memoryMapLen.toNat = some map) :
    receive infoPhys m =
      if infoPhys = 0 then .error .null
      else if info.memoryMap = 0 ∨ info.memoryMapLen = 0 then .error (.invalid .noMemoryMap)
      else .ok ⟨infoOf info, map, length_readArray harray⟩ := by
  have hvalidate : info.validate = if info.memoryMap = 0 ∨ info.memoryMapLen = 0 then
      .error .noMemoryMap else .ok () := by
    rw [BootInfo.validate, if_neg (not_not.mpr hmagic), if_neg (not_not.mpr hversion)]
  simp only [receive, hinfo, hvalidate]
  by_cases hnull : infoPhys = 0
  · rw [if_pos hnull, if_pos hnull]
  · rw [if_neg hnull, if_neg hnull]
    by_cases hnone : info.memoryMap = 0 ∨ info.memoryMapLen = 0
    · simp only [if_pos hnone]
    · simp only [if_neg hnone]
      split
      · next hread =>
        rw [harray] at hread
        cases hread
      · next map' hread =>
        obtain rfl : map = map' := Option.some.inj (harray.symm.trans hread)
        rfl

/-- A shorter array is the front of a longer one. -/
theorem readArray_take {a n k : ℕ} {l : List MemoryRegion} (hk : k ≤ n)
    (h : MemoryRegion.readArray m a n = some l) : MemoryRegion.readArray m a k = some (l.take k) := by
  induction n generalizing a k l with
  | zero =>
    obtain rfl := Nat.le_zero.mp hk
    rfl
  | succ n ih =>
    cases k with
    | zero => rfl
    | succ k =>
      rw [MemoryRegion.readArray] at h ⊢
      split at h
      · next r rest hr hrest =>
        obtain rfl := Option.some.inj h
        rw [hr, ih (Nat.le_of_succ_le_succ hk) hrest]
        rfl
      · cases h

/-- What is taken was found free. -/
theorem init_within (hroom : (usable hand.map).length ≤ maxFreeRuns)
    (h : init P hand infoPhys = .ok out) {a : ℕ}
    (ha : spans a out.heap = true ∨ ∃ run ∈ out.added, spans a run = true) :
    ∃ run, Free hand.map (exclusions hand.info infoPhys) run ∧ spans a run = true := by
  set exs := exclusions hand.info infoPhys
  set slots := List.replicate maxFreeRuns ((0, 0) : Bootinfo.Span)
  have hslots : (usable hand.map).length ≤ slots.length := by rwa [List.length_replicate]
  have hfits : (freeRuns hand.map exs slots).1 ≤ (freeRuns hand.map exs slots).2.length := by
    have hfound : (freeRuns hand.map exs slots).1 = (written hand.map exs slots).length :=
      (written_eq hslots).1
    rw [hfound, written, List.length_take]
    exact Nat.min_le_right _ _
  obtain ⟨i, hi, hbig, hheap, hadded, -⟩ := init_ok h
  rw [Nat.min_eq_left hfits] at hi hbig hheap hadded
  change biggest (written hand.map exs slots) = some i at hi
  change heapLen P (written hand.map exs slots) < ((written hand.map exs slots).getD i (0, 0)).2 at hbig
  change out.heap = (((written hand.map exs slots).getD i (0, 0)).1,
    heapLen P (written hand.map exs slots)) at hheap
  change out.added = (written hand.map exs slots).set i
    (((written hand.map exs slots).getD i (0, 0)).1 + heapLen P (written hand.map exs slots),
      ((written hand.map exs slots).getD i (0, 0)).2 - heapLen P (written hand.map exs slots)) at hadded
  have hfree := fun run (hrun : run ∈ written hand.map exs slots) => written_free hslots hrun
  generalize written hand.map exs slots = runs at *
  generalize heapLen P runs = k at *
  obtain ⟨pre, run, post, rfl, hrun⟩ := split_at (biggest_lt hi)
  rw [hrun.1] at hbig hheap hadded
  rw [hrun.2] at hadded
  have hcut : run ∈ pre ++ run :: post := by simp
  rcases ha with hin | ⟨other, hmem, hin⟩
  · rw [hheap, spans_iff] at hin
    dsimp only at hin
    exact ⟨run, hfree run hcut, spans_iff.mpr (by omega)⟩
  · rw [hadded, List.mem_append, List.mem_cons] at hmem
    rcases hmem with hmem | rfl | hmem
    · exact ⟨other, hfree other (List.mem_append_left _ hmem), hin⟩
    · rw [spans_iff] at hin
      dsimp only at hin
      exact ⟨run, hfree run hcut, spans_iff.mpr (by omega)⟩
    · exact ⟨other, hfree other (by simp [hmem]), hin⟩

end

/-! ### Whose the memory is -/

theorem mem_bytes {r : MemoryRegion} {a : ℕ} {kind : MemoryKind} :
    (a, kind) ∈ r.bytes ↔ r.start ≤ a ∧ a < r.endAddr ∧ r.kind = kind := by
  have hle := le_endAddr r
  simp only [MemoryRegion.bytes, List.mem_map, List.mem_range'_1, Prod.mk.injEq]
  constructor
  · rintro ⟨a', hrange, rfl, hkind⟩
    exact ⟨hrange.1, by omega, hkind⟩
  · rintro ⟨hlo, hhi, hkind⟩
    exact ⟨a, ⟨hlo, by omega⟩, rfl, hkind⟩

theorem classify_usable {ty : UInt32} (h : classify ty = .usable) : ty = MemoryType.conventional := by
  unfold classify at h
  split_ifs at h
  assumption

section

variable {φ : Type} {fw : Firmware φ} {C : Contract fw} {s : φ} {a : ℕ}

/-- A usable byte is one of conventional memory. -/
theorem usable_conventional (h : (a, MemoryKind.usable) ∈ coveredBytes (C.map s)) :
    ∃ d ∈ C.map s, d.ty = MemoryType.conventional ∧ d.phys.toNat ≤ a ∧ a < stop d := by
  rw [coveredBytes_eq, List.mem_flatMap] at h
  obtain ⟨d, hd, hbyte⟩ := h
  obtain ⟨hlo, hhi, hkind⟩ := mem_bytes.mp hbyte
  refine ⟨d, hd, classify_usable hkind, hlo, hhi.trans_le ?_⟩
  change min (d.phys.toNat + min (d.pages.toNat * 4096) u64Max) u64Max ≤ d.phys.toNat + 4096 * d.pages.toNat
  omega

/-- And no byte of the loader's. -/
theorem conventional_apart {d : Descriptor} (hd : d ∈ C.map s)
    (hty : d.ty = MemoryType.conventional) (hlo : d.phys.toNat ≤ a) (hhi : a < stop d) {q : UInt64}
    (hq : q ∈ C.given s) : ¬(q.toNat ≤ a ∧ a < q.toNat + 4096) := by
  rintro ⟨hqlo, hqhi⟩
  obtain ⟨d', hd', hty', hlo', hhi'⟩ := C.listed hq
  have hne : d ≠ d' := by
    rintro rfl
    rw [hty] at hty'
    exact absurd hty' (by decide)
  have hsymm : Std.Symm fun d d' : Descriptor => stop d ≤ d'.phys.toNat ∨ stop d' ≤ d.phys.toNat :=
    ⟨fun _ _ h => h.symm⟩
  have happart := (C.apart s).forall hd hd' hne
  omega

end

/-- The kernel gets its memory. -/
def takes (r : Except Alloc.Error Jump × Loader Settling) : Bool :=
  match r with
  | (.error _, _) => false
  | (.ok j, s) =>
    match receive j.rdi s.mem with
    | .error _ => false
    | .ok hand =>
      decide ((usable hand.map).length ≤ maxFreeRuns) && (init listPool hand j.rdi).toOption.isSome

theorem takes_ok {j : Jump} {s : Loader Settling} (h : takes (.ok j, s) = true) : ∃ hand out,
    receive j.rdi s.mem = .ok hand ∧ (usable hand.map).length ≤ maxFreeRuns ∧
      init listPool hand j.rdi = .ok out := by
  unfold takes at h
  dsimp only at h
  split at h
  · cases h
  · next hand hreceive =>
    obtain ⟨hroom, hsome⟩ := Bool.and_eq_true_iff.mp h
    cases hinit : init listPool hand j.rdi with
    | error e =>
      rw [hinit] at hsome
      cases hsome
    | ok out => exact ⟨hand, out, hreceive, of_decide_eq_true hroom, hinit⟩

end StarOs.Kernel.MemInit
