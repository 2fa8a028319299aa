import StarOs.Kernel.Turns
import StarOs.Kernel.Delivery

/-! Who runs owns the machine. One step of the stage, seat by seat, and the
invariants it gives: the registers are the current seat's, a seat stopped keeps its
context until it is switched to, and a dead one its stack and space until the next
context has settled it. -/

namespace StarOs.Kernel

open Library

namespace Stage

variable {s s' : Stage} {i : ℕ} {x y : Seat}

/-! ### One seat in one step -/

/-- What a step did to seat `i`. -/
inductive Fate (s s' : Stage) (i : ℕ) (x : Seat) : Seat → Prop
  | kept : Fate s s' i x x
  | woken (hb : x.state = .blocked) : Fate s s' i x { x with state := .ready }
  | left {st : State} {r : Resume} (hl : s.loaded = none) (hcur : s.current = some i)
      (hrun : x.state = .running) (hst : st ≠ .running) (hcur' : s'.current ≠ some i)
      (hprev : s'.prev = some i) : Fate s s' i x { x with state := st, ctx := .saved r }
  | entered (hready : x.state = .ready) (hcur' : s'.current = some i) :
      Fate s s' i x { x with state := .running, ctx := .loaded }
  | released (hd : x.state = .dead) (hprev : s.prev = some i) (hl : s.loaded.isSome) :
      Fate s s' i x x.give

theorem settle_current (s : Stage) : s.settle.current = s.current := by
  unfold settle
  split <;> rfl

theorem settle_cpu (s : Stage) : s.settle.cpu = s.cpu := by
  unfold settle
  split <;> rfl

theorem settle_kernelRoot (s : Stage) : s.settle.kernelRoot = s.kernelRoot := by
  unfold settle
  split <;> rfl

theorem settle_bootstrap (s : Stage) : s.settle.bootstrap = s.bootstrap := by
  unfold settle
  split <;> rfl

/-- A seat after settling: released when it is dead and was switched away from. -/
theorem settle_seat (hx : s.seats[i]? = some x) : s.settle.seats[i]? =
    some (if s.prev = some i ∧ x.state = .dead then x.give else x) := by
  unfold settle
  cases hp : s.prev with
  | none => simp [hx]
  | some p =>
    by_cases hpi : p = i
    · subst hpi
      by_cases hd : x.state = .dead <;> simp [hx, hd]
    · cases hz : s.seats[p]? <;> simp [hx, hz, hpi]

theorem settle_length (s : Stage) : s.settle.seats.length = s.seats.length := by
  unfold settle
  split <;> simp

theorem settle_fate {s₀ : Stage} (s' : Stage) (hx : s.seats[i]? = some x)
    (hprev : s₀.prev = s.prev) (hl : s₀.loaded.isSome) :
    ∃ y, s.settle.seats[i]? = some y ∧ Fate s₀ s' i x y := by
  refine ⟨_, settle_seat hx, ?_⟩
  split
  · rename_i h
    exact .released h.2 (hprev.trans h.1) hl
  · exact .kept

theorem Step.fate (h : Step s s') (hx : s.seats[i]? = some x) :
    ∃ y, s'.seats[i]? = some y ∧ Fate s s' i x y := by
  have hlt := (List.getElem?_eq_some_iff.mp hx).1
  cases h with
  | quiet => exact ⟨x, hx, .kept⟩
  | @wake w y hl hy hb =>
    by_cases hw : w = i
    · subst hw
      obtain rfl : x = y := Option.some.inj (hx.symm.trans hy)
      exact ⟨_, by simp [Stage.wake, hx], .woken hb⟩
    · exact ⟨x, by simp [Stage.wake, hw, hx], .kept⟩
  | join hl hfresh => exact ⟨x, by simp [List.getElem?_append_left hlt, hx], .kept⟩
  | @switch p next z y st r r' hl hp hz hrun hst hne hy hready hctx =>
    by_cases hpi : p = i
    · subst hpi
      obtain rfl : x = z := Option.some.inj (hx.symm.trans hz)
      exact ⟨{ x with state := st, ctx := .saved r }, by simp [enter, leave, hne.symm, hx],
        .left hl hp hrun hst (by simpa [enter] using hne.symm) rfl⟩
    · by_cases hni : next = i
      · subst hni
        obtain rfl : x = y := Option.some.inj (hx.symm.trans hy)
        exact ⟨_, by simp [enter, leave, hne, hx], .entered hready rfl⟩
      · exact ⟨x, by simp [enter, leave, hpi, hni, hx], .kept⟩
  | @idle p z st r hl hp hz hrun hst hb =>
    by_cases hpi : p = i
    · subst hpi
      obtain rfl : x = z := Option.some.inj (hx.symm.trans hz)
      exact ⟨{ x with state := st, ctx := .saved r }, by simp [Stage.idle, leave, hx],
        .left hl hp hrun hst (by simp [Stage.idle]) rfl⟩
    · exact ⟨x, by simp [Stage.idle, leave, hpi, hx], .kept⟩
  | @start next y r hl hcur hy hready hctx =>
    by_cases hni : next = i
    · subst hni
      obtain rfl : x = y := Option.some.inj (hx.symm.trans hy)
      exact ⟨_, by simp [enter, adopt, board, hx], .entered hready rfl⟩
    · exact ⟨x, by simp [enter, adopt, board, hni, hx], .kept⟩
  | nothing hl hcur => exact ⟨x, hx, .kept⟩
  | resume hr hcur => exact settle_fate _ hx rfl (by rw [hr]; rfl)
  | @again next y r hr hcur hy hready hctx =>
    have hset := settle_seat (s := s.home) hx
    by_cases hni : next = i
    · subst hni
      obtain rfl : x = y := Option.some.inj (hx.symm.trans hy)
      rw [if_neg (by simp [hready])] at hset
      exact ⟨_, by simp [enter, board, hset], .entered hready rfl⟩
    · obtain ⟨z, hz, hf⟩ := settle_fate (s := s.home)
        (s.home.settle.board.enter none next y r) hx (rfl : s.prev = _) (by rw [hr]; rfl)
      exact ⟨z, by simpa [enter, board, hni] using hz, hf⟩
  | stop hr hcur => exact settle_fate (s := s.home) _ hx rfl (by rw [hr]; rfl)

theorem Fate.registers (h : Fate s s' i x y) : y.top = x.top ∧ y.cr3 = x.cr3 := by
  cases h <;> exact ⟨rfl, rfl⟩

/-- A seat that lives lived before, and has what it had. -/
theorem Fate.alive (h : Fate s s' i x y) (hlive : y.state ≠ .dead) :
    x.state ≠ .dead ∧ y.space = x.space ∧ y.stack = x.stack := by
  cases h with
  | kept => exact ⟨hlive, rfl, rfl⟩
  | woken hb => exact ⟨by simp [hb], rfl, rfl⟩
  | left _ _ hrun => exact ⟨by simp [hrun], rfl, rfl⟩
  | entered hready => exact ⟨by simp [hready], rfl, rfl⟩
  | released hd => exact absurd hd hlive

/-- A seat was there before the step, or has just joined. -/
theorem Step.origin (h : Step s s') (hy : s'.seats[i]? = some y) :
    (∃ x, s.seats[i]? = some x ∧ Fate s s' i x y) ∨
      (s.seats[i]? = none ∧ s.loaded = none ∧ s.Fresh y ∧
        s' = { s with seats := s.seats ++ [y] }) := by
  cases hx : s.seats[i]? with
  | some x =>
    obtain ⟨z, hz, hf⟩ := h.fate hx
    obtain rfl : z = y := Option.some.inj (hz.symm.trans hy)
    exact .inl ⟨x, rfl, hf⟩
  | none =>
    refine .inr ⟨rfl, ?_⟩
    have hmod : ∀ {l : List Seat} (p : ℕ) (f : Seat → Seat), l[i]? = none →
        (l.modify p f)[i]? = none := by
      intro l p f hl
      simpa using hl
    have hset : ∀ s₀ : Stage, s₀.seats[i]? = none → s₀.settle.seats[i]? = none := by
      intro s₀ h₀
      simpa [settle_length] using h₀
    cases h with
    | quiet => cases hx.symm.trans hy
    | wake => cases (hmod _ _ hx).symm.trans hy
    | @join z hl hfresh =>
      have hi : s.seats.length ≤ i := List.getElem?_eq_none_iff.mp hx
      rw [List.getElem?_append_right hi] at hy
      obtain rfl : y = z := by simpa using List.mem_of_getElem? hy
      exact ⟨hl, hfresh, rfl⟩
    | switch => cases (hmod _ _ (hmod _ _ hx)).symm.trans hy
    | idle => cases (hmod _ _ hx).symm.trans hy
    | start => cases (hmod _ _ hx).symm.trans hy
    | nothing => cases hx.symm.trans hy
    | resume => cases (hset s hx).symm.trans hy
    | again => cases (hmod _ _ (hset s.home hx)).symm.trans hy
    | stop => cases (hset s.home hx).symm.trans hy

/-- Where the core stands after a step: it stayed, settled the seat it left, loaded
somebody else's registers, or went back to the kernel's own tree. -/
theorem Step.core (h : Step s s') :
    (s'.current = s.current ∧ s'.loaded = s.loaded ∧ s'.prev = s.prev ∧ s'.cpu = s.cpu) ∨
    (s'.current = s.current ∧ s'.loaded = none ∧ s'.prev = none ∧
      (s.current.isSome ∧ s'.cpu = s.cpu ∨
        s.current = none ∧ s.loaded.isSome ∧ s'.cpu = { s.cpu with cr3 := s.kernelRoot })) ∨
    (∃ next y, s'.current = some next ∧ s.seats[next]? = some y ∧
      s'.seats[next]? = some { y with state := .running, ctx := .loaded } ∧ s'.loaded.isSome ∧
      s'.cpu = { s.cpu with cr3 := y.cr3, rsp0 := y.top, kernelRsp := y.top } ∧
      ∀ p, s'.prev = some p → p ≠ next ∧ s.current = some p) ∨
    (∃ p, s'.current = none ∧ s'.prev = some p ∧ s'.loaded = some .inStart ∧
      s.bootstrap = .saved .inStart ∧ s.current = some p ∧
      s'.cpu = { s.cpu with cr3 := s.kernelRoot }) := by
  cases h with
  | quiet => exact .inl ⟨rfl, rfl, rfl, rfl⟩
  | wake => exact .inl ⟨rfl, rfl, rfl, rfl⟩
  | join => exact .inl ⟨rfl, rfl, rfl, rfl⟩
  | @switch p next x y st r r' hl hp hx hrun hst hne hy hready hctx =>
    refine .inr (.inr (.inl ⟨next, y, rfl, hy, by simp [enter, leave, hne, hy], rfl, rfl,
      fun q hq => ?_⟩))
    obtain rfl : p = q := Option.some.inj hq
    exact ⟨hne, hp⟩
  | idle hl hp hx hrun hst hb => exact .inr (.inr (.inr ⟨_, rfl, rfl, rfl, hb, hp, rfl⟩))
  | start hl hcur hy hready hctx =>
    exact .inr (.inr (.inl ⟨_, _, rfl, hy, by simp [enter, adopt, board, hy], rfl, rfl,
      fun q hq => by cases hq⟩))
  | nothing => exact .inl ⟨rfl, rfl, rfl, rfl⟩
  | resume hr hcur =>
    exact .inr (.inl ⟨settle_current s, settle_loaded s, settle_prev s,
      .inl ⟨hcur, settle_cpu s⟩⟩)
  | @again next y r hr hcur hy hready hctx =>
    have hset := settle_seat (s := s.home) hy
    rw [if_neg (by simp [hready])] at hset
    refine .inr (.inr (.inl ⟨next, y, rfl, hy, by simp [enter, board, hset], rfl, ?_,
      fun q hq => by cases hq⟩))
    simp [enter, board, settle_cpu, Stage.home]
  | stop hr hcur =>
    exact .inr (.inl ⟨settle_current s.home, settle_loaded _, settle_prev _,
      .inr ⟨hcur, by rw [hr]; rfl, settle_cpu _⟩⟩)

theorem Step.gsOrdinary (h : Step s s') : s'.cpu.gsOrdinary = s.cpu.gsOrdinary := by
  obtain ⟨-, -, -, hcpu⟩ | ⟨-, -, -, ⟨-, hcpu⟩ | ⟨-, -, hcpu⟩⟩ | ⟨next, y, -, -, -, -, hcpu, -⟩ |
    ⟨p, -, -, -, -, -, hcpu⟩ := h.core <;> rw [hcpu]

/-- While a continuation is loaded, the only step is the one that settles. -/
theorem Step.settles (h : Step s s') (hl : s.loaded.isSome) (hx : s.seats[i]? = some x)
    (hprev : s.prev = some i) (hd : x.state = .dead) :
    s' = s ∨ (s'.prev = none ∧ s'.seats[i]? = some x.give ∧ s'.tally = s.tally.reaped x) := by
  have hno : ∀ {P : Prop}, s.loaded = none → P := by
    intro P hn
    rw [hn] at hl
    cases hl
  have htally : ∀ s₀ : Stage, s₀.prev = some i → s₀.seats[i]? = some x → s₀.tally = s.tally →
      s₀.settle.tally = s.tally.reaped x := by
    intro s₀ hp hx ht
    simp [settle, hp, hx, ht]
  cases h with
  | quiet => exact .inl rfl
  | wake hl' => exact hno hl'
  | join hl' => exact hno hl'
  | switch hl' => exact hno hl'
  | idle hl' => exact hno hl'
  | start hl' => exact hno hl'
  | nothing hl' => exact hno hl'
  | resume =>
    refine .inr ⟨settle_prev s, ?_, htally s hprev hx rfl⟩
    rw [settle_seat hx, if_pos ⟨hprev, hd⟩]
  | @again next y r hr hcur hy hready hctx =>
    have hset := settle_seat (s := s.home) hx
    rw [if_pos ⟨hprev, hd⟩] at hset
    have hne : next ≠ i := by
      intro hni
      rw [hni, hx] at hy
      rw [Option.some.inj hy, hready] at hd
      cases hd
    exact .inr ⟨rfl, by simp [enter, board, hne, hset], htally s.home hprev hx rfl⟩
  | stop =>
    have hset := settle_seat (s := s.home) hx
    rw [if_pos ⟨hprev, hd⟩] at hset
    exact .inr ⟨settle_prev _, hset, htally s.home hprev hx rfl⟩

/-! ### The registers and the trees -/

/-- The registers are the current seat's, or the kernel's own; a seat's tree is its
space's, or the kernel's; a dead seat holds nothing unless it has just been left. -/
structure Valid (root : UInt64) (s : Stage) : Prop where
  seated : ∀ i, s.current = some i → ∃ x, s.seats[i]? = some x ∧ x.state = .running
  registers : ∀ (i : ℕ) (x : Seat), s.current = some i → s.seats[i]? = some x →
    s.cpu.cr3 = x.cr3 ∧ s.cpu.rsp0 = x.top ∧ s.cpu.kernelRsp = x.top
  home : s.current = none → s.cpu.cr3 = root
  kernel : s.bootstrap ≠ .empty → s.kernelRoot = root
  away : s.current = none → s.loaded.isSome → s.bootstrap ≠ .empty
  prev : ∀ p, s.prev = some p → s.loaded.isSome ∧ s.current ≠ some p
  thread : ∀ (i : ℕ) (x : Seat), s.seats[i]? = some x → x.state ≠ .dead → x.space = none →
    x.cr3 = root
  tree : ∀ (i : ℕ) (x : Seat) (r f : UInt64), s.seats[i]? = some x → x.space = some (r, f) →
    x.cr3 = r
  stack : ∀ (i : ℕ) (x : Seat), s.seats[i]? = some x → x.state ≠ .dead → x.stack = stackWords
  dead : ∀ (i : ℕ) (x : Seat), s.seats[i]? = some x → x.state = .dead → x.Holds →
    s.prev = some i

variable {root : UInt64}

/-- The core is in the kernel's tree whenever a seat can join. -/
theorem Valid.cr3_of_spawner (hv : Valid root s) (hf : s.Fresh x) : s.cpu.cr3 = root := by
  cases hcur : s.current with
  | none => exact hv.home hcur
  | some i =>
    obtain ⟨z, hz, hrun⟩ := hv.seated i hcur
    rw [(hv.registers i z hcur hz).1]
    exact hv.thread i z hz (by simp [hrun]) (hf.spawner i z hcur hz)

theorem Fate.current (h : Fate s s' i x y) (hrun : x.state = .running)
    (hcur : s'.current = some i) : y = x := by
  cases h with
  | kept => rfl
  | woken hb => cases hrun.symm.trans hb
  | left _ _ _ _ hcur' => exact absurd hcur hcur'
  | entered hready => cases hrun.symm.trans hready
  | released hd => cases hrun.symm.trans hd

theorem Step.kernelRoot (h : Step s s') :
    (s.current = none ∧ s'.kernelRoot = s.cpu.cr3) ∨
    (s'.kernelRoot = s.kernelRoot ∧
      (s.bootstrap ≠ .empty ∨ s'.bootstrap = s.bootstrap ∨ s.current = none ∧ s.loaded.isSome)) := by
  cases h with
  | quiet => exact .inr ⟨rfl, .inr (.inl rfl)⟩
  | wake => exact .inr ⟨rfl, .inr (.inl rfl)⟩
  | join => exact .inr ⟨rfl, .inr (.inl rfl)⟩
  | switch => exact .inr ⟨rfl, .inr (.inl rfl)⟩
  | idle hl hp hx hrun hst hb => exact .inr ⟨rfl, .inl (by simp [hb])⟩
  | start hl hcur => exact .inl ⟨hcur, rfl⟩
  | nothing hl hcur => exact .inl ⟨hcur, rfl⟩
  | resume => exact .inr ⟨settle_kernelRoot s, .inr (.inl (settle_bootstrap s))⟩
  | again hr hcur => exact .inr ⟨settle_kernelRoot s.home, .inr (.inr ⟨hcur, by rw [hr]; rfl⟩)⟩
  | stop => exact .inr ⟨settle_kernelRoot s.home, .inr (.inl (settle_bootstrap s.home))⟩

theorem Step.away (h : Step s s') (hs : s.current = none → s.loaded.isSome → s.bootstrap ≠ .empty)
    (hcur : s'.current = none) (hl' : s'.loaded.isSome) : s'.bootstrap ≠ .empty := by
  cases h with
  | quiet => exact hs hcur hl'
  | wake => exact hs hcur hl'
  | join => exact hs hcur hl'
  | switch => cases hcur
  | idle => simp [Stage.idle]
  | start => cases hcur
  | nothing => exact hs hcur hl'
  | resume => simp at hl'
  | again => cases hcur
  | stop => simp at hl'

theorem Valid.step (hv : Valid root s) (h : Step s s') : Valid root s' := by
  have hcore := h.core
  constructor
  case seated =>
    intro i hi
    obtain ⟨hcur, -⟩ | ⟨hcur, -⟩ | ⟨next, y, hcur, -, hy, -⟩ | ⟨p, hcur, -⟩ := hcore
    · obtain ⟨x, hx, hrun⟩ := hv.seated i (hcur ▸ hi)
      obtain ⟨y, hy, hf⟩ := h.fate hx
      exact ⟨y, hy, by rw [hf.current hrun hi, hrun]⟩
    · obtain ⟨x, hx, hrun⟩ := hv.seated i (hcur ▸ hi)
      obtain ⟨y, hy, hf⟩ := h.fate hx
      exact ⟨y, hy, by rw [hf.current hrun hi, hrun]⟩
    · obtain rfl : next = i := Option.some.inj (hcur.symm.trans hi)
      exact ⟨_, hy, rfl⟩
    · cases hcur.symm.trans hi
  case registers =>
    intro i y hi hy
    -- a current seat that stayed current was there with these very registers
    have hstay : s.current = some i → s'.cpu = s.cpu →
        s'.cpu.cr3 = y.cr3 ∧ s'.cpu.rsp0 = y.top ∧ s'.cpu.kernelRsp = y.top := by
      intro hi₀ hcpu
      obtain ⟨x, hx, -⟩ := hv.seated i hi₀
      obtain ⟨z, hz, hf⟩ := h.fate hx
      obtain rfl : z = y := Option.some.inj (hz.symm.trans hy)
      rw [hcpu, hf.registers.1, hf.registers.2]
      exact hv.registers i x hi₀ hx
    obtain ⟨hcur, -, -, hcpu⟩ | ⟨hcur, -, -, ⟨-, hcpu⟩ | ⟨hno, -⟩⟩ | ⟨next, z, hcur, -, hz, -, hcpu, -⟩ |
      ⟨p, hcur, -⟩ := hcore
    · exact hstay (hcur ▸ hi) hcpu
    · exact hstay (hcur ▸ hi) hcpu
    · cases hno.symm.trans (hcur.symm.trans hi)
    · obtain rfl : next = i := Option.some.inj (hcur.symm.trans hi)
      obtain rfl := Option.some.inj (hz.symm.trans hy)
      rw [hcpu]
      exact ⟨rfl, rfl, rfl⟩
    · cases hcur.symm.trans hi
  case home =>
    intro hno
    obtain ⟨hcur, -, -, hcpu⟩ | ⟨hcur, -, -, ⟨hsome, -⟩ | ⟨hnone, hl, hcpu⟩⟩ | ⟨next, z, hcur, -⟩ |
      ⟨p, -, -, -, hb, -, hcpu⟩ := hcore
    · rw [hcpu]
      exact hv.home (hcur.symm.trans hno)
    · rw [← hcur, hno] at hsome
      cases hsome
    · rw [hcpu]
      exact hv.kernel (hv.away hnone hl)
    · cases hcur.symm.trans hno
    · rw [hcpu]
      exact hv.kernel (by simp [hb])
  case kernel =>
    intro hb
    obtain ⟨hcur, hk⟩ | ⟨hk, hwas | hsame | ⟨hcur, hl⟩⟩ := h.kernelRoot
    · rw [hk]
      exact hv.home hcur
    · rw [hk]
      exact hv.kernel hwas
    · rw [hk]
      exact hv.kernel (hsame ▸ hb)
    · rw [hk]
      exact hv.kernel (hv.away hcur hl)
  case away => exact h.away hv.away
  case prev =>
    intro p hp
    obtain ⟨hcur, hl, hprev, -⟩ | ⟨-, -, hprev, -⟩ | ⟨next, z, hcur, -, -, hl, -, hne⟩ |
      ⟨q, hcur, -, hl, -⟩ := hcore
    · rw [hcur, hl]
      exact hv.prev p (hprev ▸ hp)
    · cases hprev.symm.trans hp
    · refine ⟨hl, ?_⟩
      rw [hcur]
      simpa using (hne p hp).1.symm
    · rw [hcur, hl]
      exact ⟨rfl, by simp⟩
  case thread =>
    intro i y hy hlive hno
    obtain ⟨x, hx, hf⟩ | ⟨-, -, hfresh, -⟩ := h.origin hy
    · obtain ⟨hlived, hspace, -⟩ := hf.alive hlive
      rw [hf.registers.2]
      exact hv.thread i x hx hlived (hspace.symm.trans hno)
    · rw [hfresh.cr3, hno]
      exact hv.cr3_of_spawner hfresh
  case tree =>
    intro i y r f hy hsp
    obtain ⟨x, hx, hf⟩ | ⟨-, -, hfresh, -⟩ := h.origin hy
    · rw [hf.registers.2]
      cases hf with
      | kept => exact hv.tree i y r f hx hsp
      | woken => exact hv.tree i x r f hx hsp
      | left => exact hv.tree i x r f hx hsp
      | entered => exact hv.tree i x r f hx hsp
      | released => cases hsp
    · rw [hfresh.cr3, hsp]
      rfl
  case stack =>
    intro i y hy hlive
    obtain ⟨x, hx, hf⟩ | ⟨-, -, hfresh, -⟩ := h.origin hy
    · obtain ⟨hlived, -, hstack⟩ := hf.alive hlive
      exact hstack.trans (hv.stack i x hx hlived)
    · exact hfresh.stack
  case dead =>
    intro i y hy hd hholds
    obtain ⟨x, hx, hf⟩ | ⟨-, -, hfresh, -⟩ := h.origin hy
    · cases hf with
      | kept =>
        -- it was left before, so this step settled it, or was none
        have hprev := hv.dead i y hx hd hholds
        obtain rfl | ⟨-, hgive, -⟩ := h.settles (hv.prev i hprev).1 hx hprev hd
        · exact hprev
        · rw [Option.some.inj (hy.symm.trans hgive)] at hholds
          exact absurd hholds y.give_not_holds
      | woken => cases hd
      | left _ _ _ _ _ hprev => exact hprev
      | entered => cases hd
      | released => exact absurd hholds x.give_not_holds
    · cases hfresh.ready.symm.trans hd

end Stage

namespace Machine

variable {S : Act → Prop} {k k' : Machine} {root : UInt64} {i : ℕ} {x : Task}

/-! ### Runs -/

/-- What the refinement of the stage needs of the machine. -/
structure Sound (k : Machine) : Prop where
  coherent : k.Coherent
  queued : k.net.Queued ringCap

theorem init_sound (root : UInt64) : (init root).Sound :=
  ⟨init_coherent root, by rw [init_net]; exact Net.empty_queued⟩

theorem Sound.move {l : Heap × Act} (hs : k.Sound) (h : k.Move l k') : k'.Sound := by
  have hout := outcome_of_step hs.coherent hs.queued h.1 h.2
  obtain ⟨hc, hsame | hstep⟩ := hout.refines hs.coherent
  · exact ⟨hc, hsame ▸ hs.queued⟩
  · exact ⟨hc, hs.queued.step (by decide) hstep⟩

/-- What the stage keeps, every run keeps. -/
theorem Run.staged {I : Stage → Prop} (h : Run S k k') (hs : k.Sound) (h₀ : I k.stage)
    (hstep : ∀ s s', I s → Stage.Step s s' → I s') : k'.Sound ∧ I k'.stage := by
  refine h.invariant (fun k => k.Sound ∧ I k.stage) ⟨hs, h₀⟩ ?_
  rintro k l k' ⟨hs, hi⟩ - hm
  exact ⟨hs.move hm, hstep _ _ hi (hm.staged hs.coherent hs.queued)⟩

theorem init_valid (root : UInt64) : Stage.Valid root (init root).stage := by
  constructor <;> simp [init, stage]

theorem Run.valid (h : Run S (init root) k) : k.Sound ∧ Stage.Valid root k.stage :=
  Run.staged h (init_sound root) (init_valid root) fun _ _ hv hstep => hv.step hstep

theorem Run.keepsRoot (h : Run S k k') (hs : k.Sound) (hv : Stage.Valid root k.stage)
    (hk : k.kernelRoot = root) : k'.kernelRoot = root := by
  have hinv := Run.staged (I := fun s => Stage.Valid root s ∧ s.kernelRoot = root) h hs ⟨hv, hk⟩
    fun s s' ⟨hv, hk⟩ hstep => ⟨hv.step hstep, ?_⟩
  · exact hinv.2.2
  · obtain ⟨hcur, hroot⟩ | ⟨hroot, -⟩ := hstep.kernelRoot
    · exact hroot.trans (hv.home hcur)
    · exact hroot.trans hk

theorem start_kernelRoot (hc : k.Coherent) (h : k.start = .ok k') : k'.kernelRoot = k.cpu.cr3 := by
  obtain ⟨-, rfl⟩ | ⟨next, y, hy, hready, hk'⟩ := startLoop_ok h
  · rfl
  · obtain ⟨r, hctx⟩ := hc.ready_seat (stage_seat hy) hready
    exact congrArg Stage.kernelRoot (hk' r hctx).1

/-- The running task's tree and kernel stack are the ones the processor uses; with none
running, and `start` called before, the kernel's own tree is. -/
theorem registers_follow_current (h : Run (fun _ => True) (init root) k) :
    (∀ (i : ℕ) (x : Task), k.current = some i → k.tasks[i]? = some x →
      k.cpu.cr3 = x.cr3 ∧ k.cpu.rsp0 = x.kernelStackTop ∧ k.cpu.kernelRsp = x.kernelStackTop) ∧
    ∀ (k₁ k₂ : Machine) (heap : Heap), Run (fun _ => True) (init root) k₁ →
      Move k₁ (heap, .start) k₂ → Run (fun _ => True) k₂ k → k.kernelRoot = root ∧
        (k.current = none → k.cpu.cr3 = k.kernelRoot) := by
  obtain ⟨-, hv⟩ := Run.valid h
  refine ⟨fun i x hi hx => hv.registers i x.seat hi (stage_seat hx), ?_⟩
  intro k₁ k₂ heap h₁ hm h₂
  obtain ⟨hs₁, hv₁⟩ := Run.valid h₁
  have hroot₂ : k₂.kernelRoot = root := by
    rw [start_kernelRoot hs₁.coherent hm.2]
    exact hv₁.home hm.1.2
  have hv₂ := hv₁.step (hm.staged hs₁.coherent hs₁.queued)
  have hroot := Run.keepsRoot h₂ (hs₁.move hm) hv₂ hroot₂
  exact ⟨hroot, fun hcur => (hv.home hcur).trans hroot.symm⟩

/-- Two kernel threads; the first parks in a receive, the second exits, and the core is
back in its bootstrap context. -/
def turns : List Act :=
  [.spawn (some 0x9000) none [], .spawn (some 0xA000) none [], .start, .resume, .recv 1, .resume,
    .exit]

/-- The run goes on from where the first acts led. -/
theorem run_between (acts more : List Act)
    (h : (perform ⟨8, by decide⟩ (acts ++ more) (init 0)).isSome) (hS : ∀ act ∈ more, S act) :
    Run S (after acts) (after (acts ++ more)) := by
  induction more using List.reverseRecOn with
  | nil =>
    rw [List.append_nil]
    exact .refl
  | append_singleton more act ih =>
    rw [← List.append_assoc] at h ⊢
    have hbefore : (perform ⟨8, by decide⟩ (acts ++ more) (init 0)).isSome := by
      rw [perform_append] at h
      exact Option.isSome_of_isSome_bind h
    have hrun := ih hbefore fun a ha => hS a (List.mem_append_left _ ha)
    exact hrun.tail (a := (⟨8, by decide⟩, act)) (hS act (by simp)) (step_after _ act h)

/-- While the second thread runs its stack is in the registers; once it has exited, the
kernel's own tree is. -/
theorem registers_follow_current_turns :
    (after (turns.take 6)).cpu.rsp0 = 0xA000 ∧
      (after turns).cpu.cr3 = (after turns).kernelRoot := by
  have hboot : ∀ n, (perform ⟨8, by decide⟩ (turns.take n) (init 0)).isSome →
      Run (fun _ => True) (init 0) (after (turns.take n)) :=
    fun n hn => run_after hn fun _ _ => trivial
  have hmid := (registers_follow_current (hboot 6 (by decide))).1 1 _ rfl rfl
  have hend := (registers_follow_current (hboot 7 (by decide))).2 _ _ ⟨8, by decide⟩
    (hboot 2 (by decide)) (step_after (turns.take 2) .start (by decide))
    (run_between (turns.take 3) (turns.drop 3) (by decide) fun _ _ => trivial)
  exact ⟨hmid.2.1, hend.2 rfl⟩

end Machine

end StarOs.Kernel
