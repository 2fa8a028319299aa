import StarOs.Boot.Firmware
import StarOs.Boot.PlaceImage
import StarOs.Library.PhysMemory
import StarOs.Paging.Footprint

/-! The loader between the firmware and memory: its errors, page allocation, and the page tables
it builds from such pages. A step of the loader answers or fails, and leaves the machine as it
is then. -/

namespace StarOs.Boot

open Bootinfo Library Paging

namespace Alloc

/-- A failed step, named. -/
structure Error where
  stage : String
  status : Status
  deriving DecidableEq

namespace Error

def efi (stage : String) (status : Status) : Error := ⟨stage, status⟩

def own (stage : String) : Error := ⟨stage, 0⟩

end Error

end Alloc

/-- The calls that bear on the memory map. -/
inductive Service where
  | allocatePages (pages : ℕ)
  | getMemoryMap
  | exitBootServices (status : Status)
  deriving DecidableEq

/-- The machine as the loader finds it. `failure` is kept by `BootServiceFrames`; `calls` are the
services called so far, the latest first. -/
structure Loader (φ : Type) where
  fw : φ
  mem : PhysMemory
  failure : Option Alloc.Error := none
  calls : List Service := []

/-- A part of the loader. -/
def LoaderM (φ α : Type) := Loader φ → Except Alloc.Error α × Loader φ

namespace LoaderM

variable {φ α β : Type}

def bind (x : LoaderM φ α) (f : α → LoaderM φ β) : LoaderM φ β := fun s =>
  match x s with
  | (.error e, s) => (.error e, s)
  | (.ok a, s) => f a s

instance : Monad (LoaderM φ) where
  pure a := fun s => (.ok a, s)
  bind := bind

def fail (e : Alloc.Error) : LoaderM φ α := fun s => (.error e, s)

/-- A call of the firmware that leaves memory alone. -/
def call (f : φ → α × φ) : LoaderM φ α := fun s =>
  (.ok (f s.fw).1, { s with fw := (f s.fw).2 })

def record (c : Service) : LoaderM φ Unit := fun s => (.ok (), { s with calls := c :: s.calls })

def memory : LoaderM φ PhysMemory := fun s => (.ok s.mem, s)

def store (f : PhysMemory → PhysMemory) : LoaderM φ Unit := fun s => (.ok (), { s with mem := f s.mem })

/-- `map_err` of a parser's answer. -/
def lift {ε : Type} (text : ε → String) : Except ε α → LoaderM φ α
  | .error e => fail (.own (text e))
  | .ok a => pure a

variable {x : LoaderM φ α} {f : α → LoaderM φ β} {s s' : Loader φ} {a : α} {b : β}

theorem bind_apply (x : LoaderM φ α) (f : α → LoaderM φ β) (s : Loader φ) :
    (x >>= f) s = match x s with
      | (.error e, s) => (.error e, s)
      | (.ok a, s) => f a s := rfl

theorem bind_ok (h : (x >>= f) s = (.ok b, s')) :
    ∃ a s₁, x s = (.ok a, s₁) ∧ f a s₁ = (.ok b, s') := by
  rw [bind_apply] at h
  split at h
  · cases h
  · next a s₁ hx => exact ⟨a, s₁, hx, h⟩

theorem pure_ok (h : (pure a : LoaderM φ α) s = (.ok b', s')) : a = b' ∧ s = s' := by
  obtain ⟨hb, hs⟩ := Prod.ext_iff.mp h
  exact ⟨Except.ok.inj hb, hs⟩

theorem lift_ok {ε : Type} {text : ε → String} {r : Except ε α}
    (h : lift text r s = (.ok a, s')) : r = .ok a ∧ s = s' := by
  cases r with
  | error e => cases h
  | ok a' =>
    obtain ⟨rfl, rfl⟩ := pure_ok h
    exact ⟨rfl, rfl⟩

/-- However the part ends, the machine before and after are related so. -/
def Within (R : Loader φ → Loader φ → Prop) (x : LoaderM φ α) : Prop := ∀ s, R s (x s).2

theorem Within.bind {R : Loader φ → Loader φ → Prop} (htrans : ∀ {s s₁ s₂}, R s s₁ → R s₁ s₂ → R s s₂)
    (hx : Within R x) (hf : ∀ a, Within R (f a)) : Within R (x >>= f) := by
  intro s
  have hfirst := hx s
  rw [bind_apply]
  cases hrun : x s with
  | mk r s₁ =>
    rw [hrun] at hfirst
    cases r with
    | error e => exact hfirst
    | ok a => exact htrans hfirst (hf a s₁)

end LoaderM

section

variable {φ : Type} (fw : Firmware φ)

open LoaderM

def check (stage : String) (status : Status) : LoaderM φ Unit :=
  if isError status then fail (.efi stage status) else pure ()

def allocPages (stage : String) (pages : ℕ) : LoaderM φ UInt64 :=
  if pages = 0 then fail (.own "zero-page allocation requested")
  else do
    let reply ← call (fw.allocatePages pages)
    record (.allocatePages pages)
    check stage reply.1
    store (PhysMemory.fill reply.2.toNat (4096 * pages) 0)
    return reply.2

/-- `BootServiceFrames` -/
def bootServiceFrames : FrameSource (Loader φ) where
  allocTable s :=
    match allocPages fw "allocate page table" 1 s with
    | (.ok page, s) => (some page, s)
    | (.error e, s) => (none, { s with failure := some (s.failure.getD e) })
  read s t i := s.mem.word (t.toNat + 8 * i)
  write s t i e := { s with mem := s.mem.copy (t.toNat + 8 * i) (leBytes e) }

/-- What the loader makes of an error of the mapper: the firmware's own, when it had one. -/
def told {α : Type} (x : Loader φ → Except MapError α × Loader φ) : LoaderM φ α := fun s =>
  match x s with
  | (.error e, s) => (.error (s.failure.getD (.own e.asStr)), { s with failure := none })
  | (.ok a, s) => (.ok a, s)

/-- `PageTables::new` -/
def newPageTables (gibPages : Bool) : LoaderM φ PageTables :=
  told (Mapper.new (bootServiceFrames fw) gibPages)

/-- `PageTables::map` -/
def mapPages (tables : PageTables) (virt phys size : UInt64) (rights : Paging.Rights) : LoaderM φ Unit :=
  told (Mapper.map (bootServiceFrames fw) tables virt phys size rights)

end

section

open LoaderM

variable {φ : Type} {fw : Firmware φ} (C : Contract fw) {s s' : Loader φ} {stage : String}
  {pages : ℕ} {p : UInt64} {status : Status} {u : Unit}

theorem check_ok (h : check stage status s = (.ok u, s')) : isError status = false ∧ s = s' := by
  unfold check at h
  split at h
  · cases h
  · next hstatus => exact ⟨by simpa using hstatus, (pure_ok h).2⟩

/-- The machine after a call of `AllocatePages`. -/
def asked (fw : Firmware φ) (pages : ℕ) (s : Loader φ) : Loader φ :=
  { s with fw := (fw.allocatePages pages s.fw).2, calls := .allocatePages pages :: s.calls }

theorem allocPages_eq (fw : Firmware φ) (stage : String) (s : Loader φ) (hpos : pages ≠ 0) :
    allocPages fw stage pages s =
      if isError (fw.allocatePages pages s.fw).1.1 then
        (.error (.efi stage (fw.allocatePages pages s.fw).1.1), asked fw pages s)
      else (.ok (fw.allocatePages pages s.fw).1.2, { asked fw pages s with
        mem := s.mem.fill (fw.allocatePages pages s.fw).1.2.toNat (4096 * pages) 0 }) := by
  rw [allocPages, if_neg hpos]
  simp only [bind_apply, call, record, check]
  cases isError (fw.allocatePages pages s.fw).1.1 with
  | false => rfl
  | true => rfl

/-- Pages given to the loader: whole, zeroed, and nobody's before. -/
structure Allocated (s s' : Loader φ) (p : UInt64) (n : ℕ) : Prop where
  pos : 0 < n
  aligned : p.toNat % 4096 = 0
  bound : p.toNat + 4096 * n ≤ 2 ^ 52
  fresh : ∀ q ∈ pagesFrom p n, q ∉ C.given s.fw
  given : C.given s'.fw = pagesFrom p n ∪ C.given s.fw
  mem : s'.mem = s.mem.fill p.toNat (4096 * n) 0
  failure : s'.failure = s.failure

variable {C}

theorem allocPages_ok (h : allocPages fw stage pages s = (.ok p, s')) :
    Allocated C s s' p pages := by
  by_cases hpos : pages = 0
  · rw [allocPages, if_pos hpos] at h
    cases h
  · rw [allocPages_eq fw stage s hpos] at h
    split at h
    · cases h
    · next hstatus =>
      obtain ⟨hp, rfl⟩ := Prod.ext_iff.mp h
      obtain rfl := Except.ok.inj hp
      have hlt := Nat.pos_of_ne_zero hpos
      obtain ⟨haligned, hbound, hfresh, hgiven⟩ :=
        C.allocated (n := pages) (s := s.fw) rfl (by simpa using hstatus) hlt
      exact ⟨hlt, haligned, hbound, hfresh, hgiven, rfl, rfl⟩

/-- An allocation that fails gives nothing and stores nothing. -/
theorem allocPages_error (C : Contract fw) {e : Alloc.Error}
    (h : allocPages fw stage pages s = (.error e, s')) :
    C.given s'.fw = C.given s.fw ∧ s'.mem = s.mem := by
  by_cases hpos : pages = 0
  · rw [allocPages, if_pos hpos] at h
    obtain rfl := (Prod.ext_iff.mp h).2
    exact ⟨rfl, rfl⟩
  · rw [allocPages_eq fw stage s hpos] at h
    split at h
    · next hstatus =>
      obtain rfl := (Prod.ext_iff.mp h).2
      exact ⟨C.refused (n := pages) (s := s.fw) rfl hstatus, rfl⟩
    · cases h

theorem word_zero {m : PhysMemory} {a b n : ℕ} (ha : a ≤ b) (hb : b + 8 ≤ a + n) :
    (m.fill a n 0).word b = 0 := by
  refine word_ext fun k hk => ?_
  rw [PhysMemory.word, fromLeBytes_byte _ hk, PhysMemory.getD_bytesAt hk,
    PhysMemory.fill_at _ (by omega) (by omega)]
  apply UInt8.toNat_inj.mp
  rw [shifted_byte _ hk]
  simp

/-- Two pages are the same or apart. -/
theorem pages_apart {p q : UInt64} (hp : p.toNat % 4096 = 0) (hq : q.toNat % 4096 = 0)
    (hne : p ≠ q) : p.toNat + 4096 ≤ q.toNat ∨ q.toNat + 4096 ≤ p.toNat := by
  have := mt UInt64.toNat_inj.mp hne
  omega

/-- The firmware's pages serve for tables: the mapper's terms are kept. -/
theorem bootServiceFrames_lawful :
    (bootServiceFrames fw).Lawful fun s => C.given s.fw where
  alloc s p s' h := by
    dsimp only [bootServiceFrames] at h
    split at h
    · next page s₁ halloc =>
      obtain ⟨hp, rfl⟩ := Prod.ext_iff.mp h
      obtain rfl := Option.some.inj hp
      have ha := allocPages_ok (C := C) halloc
      have haligned := ha.aligned
      have hbound := ha.bound
      have hfresh := ha.fresh page (by rw [pagesFrom_one]; rfl)
      refine ⟨haligned, by omega, hfresh, ?_, ?_, ?_⟩
      · rw [ha.given, pagesFrom_one, Set.singleton_union]
      · intro i hi
        dsimp only [bootServiceFrames]
        rw [ha.mem]
        exact word_zero (by omega) (by omega)
      · intro t ht i hi
        have hne : page ≠ t := fun heq => hfresh (heq ▸ ht)
        have hcases := pages_apart haligned (C.aligned ht) hne
        dsimp only [bootServiceFrames]
        rw [ha.mem]
        exact (PhysMemory.same_fill _ (by omega)).word
    · cases h
  exhausted s s' h := by
    dsimp only [bootServiceFrames] at h
    split at h
    · cases h
    · next e s₁ halloc =>
      obtain rfl := (Prod.ext_iff.mp h).2
      obtain ⟨hgiven, hmem⟩ := allocPages_error C halloc
      refine ⟨hgiven, fun t _ i _ => ?_⟩
      dsimp only [bootServiceFrames]
      rw [hmem]
  write s t i e ht hi := by
    refine ⟨rfl, fun u hu j hj => ?_⟩
    dsimp only [bootServiceFrames]
    split
    · next heq =>
      obtain ⟨rfl, rfl⟩ := heq
      exact PhysMemory.word_copy_leBytes _ _ _
    · next hne =>
      refine (PhysMemory.same_copy ?_).word
      rw [length_leBytes]
      by_cases hut : u = t
      · subst hut
        have hji : j ≠ i := fun heq => hne ⟨rfl, heq⟩
        omega
      · have hcases := pages_apart (C.aligned hu) (C.aligned ht) hut
        omega

/-! ### What is left alone -/

/-- The loader's pages lie apart from these addresses. -/
def Clear (C : Contract fw) (s : Loader φ) (a n : ℕ) : Prop :=
  ∀ q ∈ C.given s.fw, q.toNat + 4096 ≤ a ∨ a + n ≤ q.toNat

/-- The loader keeps its pages, and what is in them. -/
structure Kept (C : Contract fw) (s s' : Loader φ) : Prop where
  given : C.given s.fw ⊆ C.given s'.fw
  mem : ∀ q ∈ C.given s.fw, PhysMemory.Same q.toNat (q.toNat + 4096) s.mem s'.mem

theorem Kept.trans {s₁ : Loader φ} (h : Kept C s s₁) (h' : Kept C s₁ s') : Kept C s s' :=
  ⟨h.given.trans h'.given, fun q hq => (h.mem q hq).trans (h'.mem q (h.given hq))⟩

theorem Clear.mono {s₁ : Loader φ} {a n : ℕ} (h : Clear C s₁ a n)
    (hgiven : C.given s.fw ⊆ C.given s₁.fw) : Clear C s a n := fun q hq => h q (hgiven hq)

theorem Clear.kept {a n : ℕ} (h : Clear C s a n) (hgiven : C.given s.fw ⊆ C.given s'.fw)
    (hmem : ∀ x, x < a ∨ a + n ≤ x → s'.mem x = s.mem x) : Kept C s s' := by
  refine ⟨hgiven, fun q hq x hlo hhi => hmem x ?_⟩
  have := h q hq
  omega

theorem Allocated.mem_given (h : Allocated C s s' p pages) {q : UInt64} (hq : q.toNat % 4096 = 0)
    (hlo : p.toNat ≤ q.toNat) (hhi : q.toNat + 4096 ≤ p.toNat + 4096 * pages) :
    q ∈ C.given s'.fw := by
  rw [h.given]
  exact .inl ((mem_pagesFrom h.aligned h.bound).mpr ⟨hq, hlo, hhi⟩)

theorem Allocated.clear (h : Allocated C s s' p pages) : Clear C s p.toNat (4096 * pages) := by
  intro q hq
  by_contra hin
  have haligned := C.aligned hq
  have hp := h.aligned
  exact h.fresh q ((mem_pagesFrom hp h.bound).mpr ⟨haligned, by omega, by omega⟩) hq

theorem Allocated.kept (h : Allocated C s s' p pages) : Kept C s s' := by
  refine h.clear.kept (h.given ▸ Set.subset_union_right) fun x hx => ?_
  rw [h.mem]
  exact PhysMemory.fill_apart 0 hx

end

end StarOs.Boot
