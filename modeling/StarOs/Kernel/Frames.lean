import StarOs.Library.Loop
import StarOs.Library.Slice
import StarOs.Paging.Walk

/-! The kernel's frames: `alloc_frame` and `free_frame` over the frame pool, the count they
keep, and the source of page-table frames made of them. The pool itself is a parameter; what it
is asked is that a frame outstanding is not handed out again. -/

namespace StarOs.Kernel

open Library Library.Loop Paging

/-- One frame of the pool at a time, and the words of a frame through the linear map. -/
structure FramePool (σ : Type) where
  allocPages : σ → Option UInt64 × σ
  freePages : UInt64 → σ → σ
  read : σ → UInt64 → ℕ → UInt64
  write : σ → UInt64 → ℕ → UInt64 → σ

/-- `held` are the frames outstanding. The words of an outstanding frame change by a store
only. -/
structure FramePool.Lawful {σ : Type} (P : FramePool σ) (held : σ → Set UInt64) : Prop where
  alloc : ∀ s p s', P.allocPages s = (some p, s') →
    p.toNat % 4096 = 0 ∧ p.toNat < 2 ^ 52 ∧ p ∉ held s ∧ held s' = insert p (held s) ∧
      ∀ t ∈ held s, ∀ i < 512, P.read s' t i = P.read s t i
  exhausted : ∀ s s', P.allocPages s = (none, s') →
    held s' = held s ∧ ∀ t ∈ held s, ∀ i < 512, P.read s' t i = P.read s t i
  free : ∀ s p, p ∈ held s → held (P.freePages p s) = held s \ {p} ∧
    ∀ t ∈ held s, t ≠ p → ∀ i < 512, P.read (P.freePages p s) t i = P.read s t i
  write : ∀ s t i e, t ∈ held s → i < 512 → held (P.write s t i e) = held s ∧
    ∀ u ∈ held s, ∀ j < 512,
      P.read (P.write s t i e) u j = if u = t ∧ j = i then e else P.read s u j

inductive FrameEvent where
  | taken (frame : UInt64)
  | freed (frame : UInt64)
  deriving DecidableEq

/-- The pool and the ledger beside it. `events` is what the two functions below have done, the
latest first. -/
structure Mem (σ : Type) where
  pool : σ
  inUse : UInt64
  events : List FrameEvent

section

variable {σ : Type} (P : FramePool σ)

def allocFrame (m : Mem σ) : Option UInt64 × Mem σ :=
  match P.allocPages m.pool with
  | (none, s) => (none, { m with pool := s })
  | (some p, s) => (some p, ⟨s, m.inUse + 1, .taken p :: m.events⟩)

def freeFrame (frame : UInt64) (m : Mem σ) : Mem σ :=
  ⟨P.freePages frame m.pool, m.inUse - 1, .freed frame :: m.events⟩

def framesInUse (m : Mem σ) : UInt64 := m.inUse

namespace Mem

def read (m : Mem σ) (t : UInt64) (i : ℕ) : UInt64 := P.read m.pool t i

def write (m : Mem σ) (t : UInt64) (i : ℕ) (e : UInt64) : Mem σ :=
  { m with pool := P.write m.pool t i e }

end Mem

/-- `write_bytes` of a whole frame. -/
def zeroFrame (frame : UInt64) (m : Mem σ) : Mem σ :=
  forRange 512 (fun m i => m.write P frame i 0) m

/-- Word `i` of a page that starts with these bytes. -/
def pageWord (bytes : List UInt8) (i : ℕ) : UInt64 := fromLeBytes ((bytes.drop (8 * i)).take 8)

/-- `copy_nonoverlapping` to the start of a frame that was zeroed. -/
def copyToFrame (frame : UInt64) (bytes : List UInt8) (m : Mem σ) : Mem σ :=
  forRange ((bytes.length + 7) / 8) (fun m i => m.write P frame i (pageWord bytes i)) m

/-- `KernelFrames` -/
def kernelFrames : FrameSource (Mem σ) where
  allocTable m :=
    match allocFrame P m with
    | (none, m) => (none, m)
    | (some frame, m) => (some frame, zeroFrame P frame m)
  read := Mem.read P
  write := Mem.write P

end

/-! ### The ledger -/

/-- Words stored in turn to one frame that is held. -/
structure Stored {σ : Type} (P : FramePool σ) (held : σ → Set UInt64) (frame : UInt64)
    (word : ℕ → UInt64) (m m' : Mem σ) : Prop where
  events : m'.events = m.events
  inUse : m'.inUse = m.inUse
  outstanding : held m'.pool = held m.pool
  beside : ∀ t ∈ held m.pool, t ≠ frame → ∀ i < 512, m'.read P t i = m.read P t i
  word : ∀ i < 512, m'.read P frame i = word i

/-- The frames `taken` were allocated on the way, the latest first. -/
structure Took {σ : Type} (held : σ → Set UInt64) (m m' : Mem σ) (taken : List UInt64) : Prop where
  events : m'.events = taken.map FrameEvent.taken ++ m.events
  inUse : m'.inUse = m.inUse + UInt64.ofNat taken.length
  outstanding : ∀ q, q ∈ held m'.pool ↔ q ∈ taken ∨ q ∈ held m.pool
  nodup : taken.Nodup
  fresh : ∀ q ∈ taken, q ∉ held m.pool
  framed : ∀ q ∈ taken, Framed q

section

variable {σ : Type} {P : FramePool σ} {held : σ → Set UInt64} {m m' m₁ : Mem σ}
  {frame : UInt64} {taken new : List UInt64}

theorem forRange_stored (hP : P.Lawful held) (hframe : frame ∈ held m.pool) (word : ℕ → UInt64)
    {n : ℕ} (hn : n ≤ 512) :
    Stored P held frame (fun i => if i < n then word i else m.read P frame i) m
      (forRange n (fun m i => m.write P frame i (word i)) m) := by
  refine forRange_invariant (P := fun k s =>
    Stored P held frame (fun i => if i < k then word i else m.read P frame i) m s)
    ⟨rfl, rfl, rfl, fun _ _ _ _ _ => rfl, fun i _ => by simp⟩ fun k hk s hs => ?_
  obtain ⟨hheld, hread⟩ := hP.write s.pool frame k (word k) (hs.outstanding ▸ hframe) (by omega)
  constructor
  · exact hs.events
  · exact hs.inUse
  · exact hheld.trans hs.outstanding
  · intro t ht hne i hi
    refine (hread t (hs.outstanding ▸ ht) i hi).trans ?_
    rw [if_neg fun h => hne h.1]
    exact hs.beside t ht hne i hi
  · intro i hi
    refine (hread frame (hs.outstanding ▸ hframe) i hi).trans ?_
    by_cases hik : i = k
    · rw [if_pos ⟨rfl, hik⟩, if_pos (by omega), hik]
    · rw [if_neg fun h => hik h.2]
      refine (hs.word i hi).trans ?_
      by_cases hlt : i < k
      · rw [if_pos hlt, if_pos (by omega)]
      · rw [if_neg hlt, if_neg (by omega)]

/-- A store leaves the other frames alone. -/
theorem write_beside (hP : P.Lawful held) (hframe : frame ∈ held m.pool) {i : ℕ} (hi : i < 512)
    (e : UInt64) : held (m.write P frame i e).pool = held m.pool ∧
      ∀ t ∈ held m.pool, t ≠ frame → ∀ j < 512, (m.write P frame i e).read P t j = m.read P t j := by
  obtain ⟨hheld, hread⟩ := hP.write m.pool frame i e hframe hi
  exact ⟨hheld, fun t ht hne j hj => (hread t ht j hj).trans (if_neg fun heq => hne heq.1)⟩

theorem zeroFrame_stored (hP : P.Lawful held) (hframe : frame ∈ held m.pool) :
    Stored P held frame (fun _ => 0) m (zeroFrame P frame m) := by
  have h := forRange_stored hP hframe (fun _ => 0) (le_refl 512)
  exact ⟨h.events, h.inUse, h.outstanding, h.beside, fun i hi => (h.word i hi).trans (if_pos hi)⟩

/-- A frame zeroed and filled holds the page that starts with the bytes. -/
theorem fill_stored (hP : P.Lawful held) (hframe : frame ∈ held m.pool) {bytes : List UInt8}
    (hlen : bytes.length ≤ 4096) :
    Stored P held frame (pageWord bytes) m (copyToFrame P frame bytes (zeroFrame P frame m)) := by
  have hz := zeroFrame_stored hP hframe
  unfold copyToFrame
  generalize zeroFrame P frame m = m₁ at hz ⊢
  have hc := forRange_stored hP (hz.outstanding ▸ hframe : frame ∈ held m₁.pool) (pageWord bytes)
    (show (bytes.length + 7) / 8 ≤ 512 by omega)
  constructor
  · exact hc.events.trans hz.events
  · exact hc.inUse.trans hz.inUse
  · exact hc.outstanding.trans hz.outstanding
  · intro t ht hne i hi
    exact (hc.beside t (hz.outstanding ▸ ht) hne i hi).trans (hz.beside t ht hne i hi)
  · intro i hi
    refine (hc.word i hi).trans ?_
    by_cases hlt : i < (bytes.length + 7) / 8
    · exact if_pos hlt
    · rw [if_neg hlt, hz.word i hi, pageWord, List.drop_eq_nil_of_le (by omega)]
      rfl

theorem Took.refl (m : Mem σ) : Took held m m [] := by
  refine ⟨rfl, ?_, by simp, List.nodup_nil, by simp, by simp⟩
  exact (UInt64.add_zero _).symm

theorem Took.trans (h : Took held m m₁ taken) (h' : Took held m₁ m' new) :
    Took held m m' (new ++ taken) where
  events := by rw [h'.events, h.events, List.map_append, List.append_assoc]
  inUse := by
    rw [h'.inUse, h.inUse, List.length_append, UInt64.ofNat_add, UInt64.add_assoc,
      UInt64.add_comm (UInt64.ofNat taken.length)]
  outstanding q := by rw [h'.outstanding, h.outstanding, List.mem_append, or_assoc]
  nodup := List.nodup_append.mpr ⟨h'.nodup, h.nodup, fun q hq q' hq' heq =>
    h'.fresh q hq ((h.outstanding q).mpr (.inl (heq ▸ hq')))⟩
  fresh q hq hold := by
    rcases List.mem_append.mp hq with hq | hq
    · exact h'.fresh q hq ((h.outstanding q).mpr (.inr hold))
    · exact h.fresh q hq hold
  framed q hq := (List.mem_append.mp hq).elim (h'.framed q) (h.framed q)

/-- There are fewer frames than the count can hold. -/
theorem Took.length_lt (h : Took held m m' taken) : taken.length < 2 ^ 64 := by
  have hnd : (taken.map (·.toNat)).Nodup := h.nodup.map fun _ _ => UInt64.toNat_inj.mp
  have hsub : taken.map (·.toNat) ⊆ List.range (2 ^ 52) := by
    intro n hn
    obtain ⟨q, hq, rfl⟩ := List.mem_map.mp hn
    exact List.mem_range.mpr (framed_iff.mp (h.framed q hq)).2
  have hle := (List.subperm_of_subset hnd hsub).length_le
  rw [List.length_map, List.length_range] at hle
  omega

theorem Took.inUse_eq_iff (h : Took held m m' taken) : m'.inUse = m.inUse ↔ taken = [] := by
  have hlen := h.length_lt
  have hsize : (UInt64.ofNat taken.length).toNat = taken.length :=
    UInt64.toNat_ofNat_of_lt' (by rw [UInt64.size]; omega)
  have hm := m.inUse.toNat_lt
  rw [h.inUse, ← UInt64.toNat_inj, UInt64.toNat_add, hsize, ← List.length_eq_zero_iff]
  omega

theorem Took.held_eq_iff (h : Took held m m' taken) :
    held m'.pool = held m.pool ↔ taken = [] := by
  constructor
  · intro heq
    refine List.eq_nil_iff_forall_not_mem.mpr fun q hq => h.fresh q hq ?_
    rw [← heq]
    exact (h.outstanding q).mpr (.inl hq)
  · rintro rfl
    ext q
    simp [h.outstanding q]

/-- Nothing was allocated. -/
theorem Took.same (hevents : m'.events = m.events) (hinUse : m'.inUse = m.inUse)
    (hheld : held m'.pool = held m.pool) : Took held m m' [] := by
  refine ⟨hevents, ?_, by simp [hheld], List.nodup_nil, by simp, by simp⟩
  exact hinUse.trans (UInt64.add_zero _).symm

theorem Stored.took {word : ℕ → UInt64} (h : Stored P held frame word m m') : Took held m m' [] :=
  Took.same h.events h.inUse h.outstanding

theorem allocFrame_some (hP : P.Lawful held) (h : allocFrame P m = (some frame, m')) :
    Took held m m' [frame] ∧ ∀ t ∈ held m.pool, ∀ i < 512, m'.read P t i = m.read P t i := by
  unfold allocFrame at h
  split at h
  · cases h
  · next p s ha =>
    obtain ⟨hp, rfl⟩ := Prod.ext_iff.mp h
    obtain rfl := Option.some.inj hp
    obtain ⟨halign, hbound, hnew, hheld, hread⟩ := hP.alloc _ p s ha
    refine ⟨⟨rfl, rfl, fun q => ?_, List.nodup_singleton p, by simpa using hnew, ?_⟩, hread⟩
    · rw [hheld, Set.mem_insert_iff, List.mem_singleton]
    · simpa using framed_iff.mpr ⟨halign, hbound⟩

theorem allocFrame_none (hP : P.Lawful held) (h : allocFrame P m = (none, m')) :
    Took held m m' [] ∧ ∀ t ∈ held m.pool, ∀ i < 512, m'.read P t i = m.read P t i := by
  unfold allocFrame at h
  split at h
  · next s ha =>
    obtain rfl := (Prod.ext_iff.mp h).2
    obtain ⟨hheld, hread⟩ := hP.exhausted _ s ha
    exact ⟨Took.same rfl rfl hheld, hread⟩
  · cases h

/-- The frames outstanding, of the memory as a whole. -/
def heldBy (held : σ → Set UInt64) (m : Mem σ) : Set UInt64 := held m.pool

/-- A table frame is a frame of the pool, zeroed. -/
theorem allocTable_some (hP : P.Lawful held)
    (h : (kernelFrames P).allocTable m = (some frame, m')) : Took held m m' [frame] ∧
      (∀ i < 512, m'.read P frame i = 0) ∧
      ∀ t ∈ held m.pool, ∀ i < 512, m'.read P t i = m.read P t i := by
  simp only [kernelFrames] at h
  split at h
  · cases h
  · next p m₁ ha =>
    obtain ⟨hp, rfl⟩ := Prod.ext_iff.mp h
    obtain rfl := Option.some.inj hp
    obtain ⟨htook, hread⟩ := allocFrame_some hP ha
    have hmem : p ∈ held m₁.pool := (htook.outstanding p).mpr (.inl List.mem_cons_self)
    have hz := zeroFrame_stored hP hmem
    dsimp only
    refine ⟨htook.trans hz.took, hz.word, fun t ht i hi => ?_⟩
    have hne : t ≠ p := fun heq => htook.fresh p List.mem_cons_self (heq ▸ ht)
    exact (hz.beside t ((htook.outstanding t).mpr (.inr ht)) hne i hi).trans (hread t ht i hi)

theorem allocTable_none (hP : P.Lawful held) (h : (kernelFrames P).allocTable m = (none, m')) :
    Took held m m' [] ∧ ∀ t ∈ held m.pool, ∀ i < 512, m'.read P t i = m.read P t i := by
  simp only [kernelFrames] at h
  split at h
  · next m₁ ha =>
    obtain rfl : m₁ = m' := (Prod.ext_iff.mp h).2
    exact allocFrame_none hP ha
  · cases h

/-- `KernelFrames` does what the trait asks. -/
theorem kernelFrames_lawful (hP : P.Lawful held) :
    (kernelFrames P).Lawful (heldBy held) where
  alloc m p m' h := by
    obtain ⟨htook, hzero, hread⟩ := allocTable_some hP h
    obtain ⟨halign, hbound⟩ := framed_iff.mp (htook.framed p List.mem_cons_self)
    refine ⟨halign, hbound, htook.fresh p List.mem_cons_self, ?_, hzero, hread⟩
    ext q
    rw [Set.mem_insert_iff, ← List.mem_singleton]
    exact htook.outstanding q
  exhausted m m' h := by
    obtain ⟨htook, hread⟩ := allocTable_none hP h
    refine ⟨?_, hread⟩
    ext q
    exact (htook.outstanding q).trans (by simp [heldBy])
  write m t i e ht hi := hP.write m.pool t i e ht hi

/-- The calls of the mapper to its source take frames as `alloc_frame` does. -/
theorem calls_took (hP : P.Lawful held) (h : Calls (kernelFrames P) (heldBy held) m m' taken) :
    Took held m m' taken := by
  induction h with
  | refl => exact Took.refl _
  | alloc _ ha ih => exact (ih).trans (allocTable_some hP ha).1
  | exhausted _ ha ih => exact (ih).trans (allocTable_none hP ha).1
  | @write m₁ _ t e i _ ht hi ih =>
    have hsame : Took held m₁ (m₁.write P t i e) [] :=
      Took.same rfl rfl (hP.write m₁.pool t i e ht hi).1
    exact ih.trans hsame

theorem freeFrame_spec (hP : P.Lawful held) (hmem : frame ∈ held m.pool) :
    held (freeFrame P frame m).pool = held m.pool \ {frame} ∧
      ∀ t ∈ held m.pool, t ≠ frame → ∀ i < 512,
        (freeFrame P frame m).read P t i = m.read P t i := hP.free m.pool frame hmem

end

/-! ### A pool -/

instance {phys : UInt64} : Decidable (Framed phys) :=
  inferInstanceAs (Decidable (phys &&& pteAddrMask = phys))

/-- A stack of free frames, beside all the words. -/
structure FrameStack where
  free : List UInt64
  nodup : free.Nodup
  framed : ∀ p ∈ free, Framed p
  words : UInt64 → ℕ → UInt64

namespace FrameStack

def pop (s : FrameStack) : FrameStack where
  free := s.free.tail
  nodup := s.nodup.sublist (List.tail_sublist _)
  framed p hp := s.framed p (List.mem_of_mem_tail hp)
  words := s.words

def push (s : FrameStack) (p : UInt64) (h : Framed p ∧ p ∉ s.free) : FrameStack where
  free := p :: s.free
  nodup := List.nodup_cons.mpr ⟨h.2, s.nodup⟩
  framed q hq := (List.mem_cons.mp hq).elim (fun heq => heq ▸ h.1) (s.framed q)
  words := s.words

def pool : FramePool FrameStack where
  allocPages s := if s.free = [] then (none, s) else (s.free.head?, s.pop)
  freePages p s := if h : Framed p ∧ p ∉ s.free then s.push p h else s
  read s := s.words
  write s t i e := { s with words := fun u j => if u = t ∧ j = i then e else s.words u j }

/-- Every frame that is not on the stack. -/
def held (s : FrameStack) : Set UInt64 := {p | Framed p ∧ p ∉ s.free}

theorem lawful : pool.Lawful held where
  alloc s p s' h := by
    simp only [pool] at h
    split at h
    · cases h
    · next hne =>
      obtain ⟨q, rest, hfree⟩ := List.exists_cons_of_ne_nil hne
      obtain ⟨hp, rfl⟩ := Prod.ext_iff.mp h
      obtain rfl : q = p := Option.some.inj ((congrArg List.head? hfree).symm.trans hp)
      have hframed := s.framed q (hfree ▸ List.mem_cons_self)
      have hnd := List.nodup_cons.mp (hfree ▸ s.nodup)
      obtain ⟨halign, hbound⟩ := framed_iff.mp hframed
      refine ⟨halign, hbound, ?_, ?_, fun _ _ _ _ => rfl⟩
      · exact fun hq => hq.2 (hfree ▸ List.mem_cons_self)
      · have hpop : s.pop.free = rest := congrArg List.tail hfree
        ext r
        simp only [held, Set.mem_ofPred_eq, Set.mem_insert_iff, hpop, hfree, List.mem_cons]
        grind
  exhausted s s' h := by
    simp only [pool] at h
    split at h
    · obtain rfl := (Prod.ext_iff.mp h).2
      exact ⟨rfl, fun _ _ _ _ => rfl⟩
    · next hne =>
      obtain ⟨q, rest, hfree⟩ := List.exists_cons_of_ne_nil hne
      have hnone := (Prod.ext_iff.mp h).1
      rw [hfree] at hnone
      cases hnone
  free s p hp := by
    simp only [pool, dif_pos (show Framed p ∧ p ∉ s.free from hp)]
    refine ⟨?_, fun _ _ _ _ _ => rfl⟩
    ext r
    simp only [held, push, Set.mem_ofPred_eq, Set.mem_sdiff, Set.mem_singleton_iff, List.mem_cons]
    tauto
  write s t i e _ _ := ⟨rfl, fun _ _ _ _ => rfl⟩

end FrameStack

end StarOs.Kernel
