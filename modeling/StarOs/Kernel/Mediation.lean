import StarOs.Kernel.History

/-! What a syscall may change, and on whose authority. -/

namespace StarOs.Kernel

open Library

namespace Machine

variable {k k' : Machine} {t i : ℕ} {x y : Task}

/-- A task that lives keeps what it holds where nothing of its own moved. -/
theorem KeptAt.of_live (h : KeptAt i k k') (hy : k.tasks[i]? = some y) (hlive : y.state ≠ .dead) :
    ∃ y', k'.tasks[i]? = some y' ∧ y'.holdings = y.holdings := by
  rcases h with h | ⟨z, hz, hdead, -⟩
  · rw [hy] at h
    exact Option.map_eq_some_iff.mp h
  · exact absurd (Option.some.inj (hy.symm.trans hz) ▸ hdead) hlive

theorem caps_of_authority {l l' : List Task} (h : l'.map Task.authority = l.map Task.authority)
    (hy : l[i]? = some y) : ∃ y', l'[i]? = some y' ∧ y'.caps = y.caps := by
  have hi := congrArg (fun m => m[i]?) h
  simp only [List.getElem?_map, hy, Option.map_some] at hi
  obtain ⟨y', hy', heq⟩ := Option.map_eq_some_iff.mp hi
  exact ⟨y', hy', congrArg Prod.snd heq⟩

theorem caps_of_holdings {y' : Task} (h : y'.holdings = y.holdings) : y'.caps = y.caps :=
  congrArg (fun p => p.2.1) h

/-- The endpoints a syscall changes are those its caller's handle authorises. -/
theorem Reply.authorised {heap : Heap} {frame : Frame} (h : Reply heap t x frame k k')
    {ep : Fin numEndpoints} (hne : k'.ipc ep ≠ k.ipc ep) :
    (Syscall.fromRaw frame.rax = some .send ∧
      ∃ obj, Authorised x k.objects frame.rdi.toUInt32 true ep obj) ∨
    (Syscall.fromRaw frame.rax = some .recv ∧
      ∃ obj, Authorised x k.objects frame.rdi.toUInt32 false ep obj) := by
  have hupd : ∀ {n : ℕ} {f : Fin numEndpoints → Endpoint},
      (k'.ipc = k.ipc ∨ ∃ e : Fin numEndpoints, e = n ∧
        k'.ipc = Function.update k.ipc e (f e)) → n = ep := by
    rintro n f (hipc | ⟨e, rfl, hipc⟩)
    · exact absurd (by rw [hipc]) hne
    · by_contra hep
      refine hne ?_
      rw [hipc, Function.update_of_ne (fun heq => hep (by rw [heq]))]
  cases h with
  | early rc h => exact absurd (by rw [h.own.ipc]) hne
  | quiet hcall h => exact absurd (by rw [h.ipc]) hne
  | sent hcall n obj km hent h =>
    obtain rfl := hupd (f := fun e => ((k.ipc e).decideSend t km).2) h.ipc
    exact .inl ⟨hcall, obj, hent.authorised⟩
  | received hcall n obj corrupt hauth hwrite h =>
    obtain rfl := hupd (f := fun e => ((k.ipc e).decideRecv t).2) h.ipc
    exact .inr ⟨hcall, obj, hauth⟩
  | revoked _ _ _ _ _ hipc => exact absurd (by rw [hipc]) hne

/-- The object table changes by a revocation of what the caller's handle names. -/
theorem Reply.objects {heap : Heap} {frame : Frame} (h : Reply heap t x frame k k')
    (hne : k'.objects ≠ k.objects) : Syscall.fromRaw frame.rax = some .revoke ∧
      ∃ c, x.caps.resolve frame.rdi.toUInt32 = some c ∧
        Obj.revoke c.object k.objects = (true, k'.objects) := by
  cases h with
  | early rc h => exact absurd h.own.objects hne
  | quiet hcall h => exact absurd h.objects hne
  | sent hcall n obj km hent h => exact absurd h.objects hne
  | received hcall n obj corrupt hauth hwrite h => exact absurd h.objects hne
  | revoked hcall c hcap hobj => exact ⟨hcall, c, hcap, hobj⟩

/-- A syscall leaves the table of every other live task alone. -/
theorem Reply.caps_ne {heap : Heap} {frame : Frame} (h : Reply heap t x frame k k') (hi : t ≠ i)
    (hy : k.tasks[i]? = some y) (hlive : y.state ≠ .dead) :
    ∃ y', k'.tasks[i]? = some y' ∧ y'.caps = y.caps := by
  cases h with
  | early rc h => exact ⟨y, by rw [h.tasks, hy], rfl⟩
  | quiet hcall h =>
    obtain ⟨y', hy', hhold⟩ := (h.kept i).of_live hy hlive
    exact ⟨y', hy', caps_of_holdings hhold⟩
  | sent hcall n obj km hent h => exact caps_of_authority h.authority hy
  | received hcall n obj corrupt hauth hwrite h =>
    have hhold := h.others i hi
    rw [hy] at hhold
    obtain ⟨y', hy', heq⟩ := Option.map_eq_some_iff.mp hhold
    exact ⟨y', hy', caps_of_holdings heq⟩
  | revoked _ _ _ _ htasks => exact ⟨y, by rw [htasks, hy], rfl⟩

/-- A refusal going back to ring 3. -/
def Event.refused (t : ℕ) (e : KError) (ev : Event) : Prop :=
  e.refusal ∧ ∃ rip, ev = .sysret t (.error e) rip

theorem Event.not_back_of_refused {e : KError} {ev : Event} (h : Event.refused t e ev) :
    ev.back = false := by
  obtain ⟨he, rip, rfl⟩ := h
  simp [Event.back, he]

/-- A refused syscall changes no task, endpoint or object. -/
theorem Reply.refused {heap : Heap} {frame : Frame} (h : Reply heap t x frame k k')
    {evs : List Event} {ev : Event} {e : KError} (hlog : k'.log = evs ++ k.log) (hmem : ev ∈ evs)
    (href : Event.refused t e ev) :
    k'.tasks = k.tasks ∧ k'.ipc = k.ipc ∧ k'.objects = k.objects := by
  have hno : ∀ {P : Event → Prop}, Grew P k k' → ¬ P ev → False := by
    rintro P ⟨evs', hlog', hall⟩ hP
    obtain rfl : evs = evs' := List.append_cancel_right (hlog.symm.trans hlog')
    exact hP (hall ev hmem)
  have hback := Event.not_back_of_refused href
  have hclosing : ¬ ev.closing := fun hcl => by
    rw [Event.back_of_closing hcl] at hback
    cases hback
  obtain ⟨he, rip, rfl⟩ := href
  cases h with
  | early rc h => exact ⟨h.tasks, h.own.ipc, h.own.objects⟩
  | quiet hcall h => exact (hno h.grew hclosing).elim
  | sent hcall n obj km hent h =>
    refine (hno h.grew ?_).elim
    rintro (hcl | ⟨ep, -, hev⟩)
    · exact hclosing hcl
    · cases hev
  | received hcall n obj corrupt hauth hwrite h =>
    refine (hno h.grew ?_).elim
    rintro (hb | ⟨_, -, hev⟩)
    · rw [hback] at hb
      cases hb
    · cases hev
  | revoked _ _ _ _ _ _ _ _ hlog' =>
    refine (hno (P := fun ev => ev.back ∨ ∃ r, ev = .revoked r) ⟨[_, _], hlog', ?_⟩ ?_).elim
    · simp [Event.back]
    · rintro (hb | ⟨_, hev⟩)
      · rw [hback] at hb
        cases hb
      · cases hev

/-- Complete mediation: whatever the registers, a syscall changes an endpoint only in
the direction the caller's own handle authorises at that moment, the object table only
by revoking what that handle names, no other live task's table, and nothing at all when
it is refused. What is left of a parked call, when it runs, changes no endpoint, no
object and no other live task's table. -/
theorem complete_mediation (h : Reachable k) :
    (∀ (heap : Heap) (frame : Frame) (k' : Machine) (t : ℕ) (x : Task),
      k.Enabled (.syscall frame) → k.step heap (.syscall frame) = .ok k' →
      k.current = some t → k.tasks[t]? = some x →
      (∀ ep : Fin numEndpoints, k'.ipc ep ≠ k.ipc ep →
        (Syscall.fromRaw frame.rax = some .send ∧
          ∃ obj, Authorised x k.objects frame.rdi.toUInt32 true ep obj) ∨
        (Syscall.fromRaw frame.rax = some .recv ∧
          ∃ obj, Authorised x k.objects frame.rdi.toUInt32 false ep obj)) ∧
      (k'.objects ≠ k.objects → Syscall.fromRaw frame.rax = some .revoke ∧
        ∃ c, x.caps.resolve frame.rdi.toUInt32 = some c ∧
          Obj.revoke c.object k.objects = (true, k'.objects)) ∧
      (∀ (i : ℕ) (y : Task), t ≠ i → k.tasks[i]? = some y → y.state ≠ .dead →
        ∃ y', k'.tasks[i]? = some y' ∧ y'.caps = y.caps) ∧
      (∀ evs e rip, k'.log = evs ++ k.log → .sysret t (.error e) rip ∈ evs →
        e = .permissionDenied ∨ e = .badHandle ∨ e = .noSuchSyscall →
        k'.tasks = k.tasks ∧ k'.ipc = k.ipc ∧ k'.objects = k.objects)) ∧
    (∀ (heap : Heap) (k' : Machine), k.Enabled .resume → k.step heap .resume = .ok k' →
      k'.ipc = k.ipc ∧ k'.objects = k.objects ∧
      ∀ (i : ℕ) (y : Task), k.current ≠ some i → k.tasks[i]? = some y → y.state ≠ .dead →
        ∃ y', k'.tasks[i]? = some y' ∧ y'.caps = y.caps) := by
  obtain ⟨hc, hq, -⟩ := h.sound
  constructor
  · intro heap frame k' t x he hs hk hx
    obtain ⟨k₁, hs₁, hreply⟩ := onSyscall_spec heap frame hc hq hk hx he.1
    obtain rfl : k₁ = k' := Except.ok.inj (hs₁.symm.trans hs)
    refine ⟨fun ep hne => hreply.authorised hne, hreply.objects, ?_, ?_⟩
    · intro i y hi hy hlive
      exact hreply.caps_ne hi hy hlive
    · intro evs e rip hlog hmem he
      refine hreply.refused hlog hmem ⟨?_, rip, rfl⟩
      rcases he with rfl | rfl | rfl <;> rfl
  · intro heap k' he hs
    obtain ⟨k₁, hs₁, hres⟩ := resume_spec heap hc he
    obtain rfl : k₁ = k' := Except.ok.inj (hs₁.symm.trans hs)
    cases hres with
    | quiet h =>
      refine ⟨h.ipc, h.objects, fun i y _ hy hlive => ?_⟩
      obtain ⟨y', hy', hhold⟩ := (h.kept i).of_live hy hlive
      exact ⟨y', hy', caps_of_holdings hhold⟩
    | delivered t x x' ep caller km hk hx hl hmail hcoh hwire hkept hipc hobj hx' hdel =>
      refine ⟨hipc, hobj, fun i y hi hy hlive => ?_⟩
      have hne : t ≠ i := fun heq => hi (heq ▸ hk)
      obtain ⟨y', hy', hhold⟩ := (hkept i hne).of_live hy hlive
      exact ⟨y', hy', caps_of_holdings hhold⟩

/-- A space in which everything may be touched. -/
def flat : UserSpace := ⟨0x5000, 0, fun _ _ _ => true, fun _ => 0, 1⟩

/-- A ring-3 task holding both rights on the delegated endpoint, in its own code. -/
def holding : List Act :=
  [.create (.endpoint 2), .spawn (some 0x1000) (some flat) [.endpoint ⟨0, 0⟩ true true], .start,
    .resume]

/-- Its send through handle 1 fills a slot of the ring, on that handle's authority. -/
theorem complete_mediation_send : ∃ x obj, (after holding).tasks[0]? = some x ∧
    Authorised x (after holding).objects 1 true delegatedEp obj := by
  obtain ⟨x, hx⟩ : ∃ x, (after holding).tasks[0]? = some x :=
    Option.isSome_iff_exists.mp (by decide)
  have hstep := step_after holding (.syscall ⟨1, 1, 0x2000, 0⟩) (by decide)
  have hreach : Reachable (after holding) := after_reachable (by decide)
  obtain ⟨h, -⟩ := (complete_mediation hreach).1
    _ _ _ 0 x hstep.1 hstep.2 (by decide) hx
  rcases h delegatedEp (fun heq => absurd (congrArg (fun e => e.ring.len) heq) (by decide)) with
    ⟨-, obj, hauth⟩ | ⟨hcall, -⟩
  · exact ⟨x, obj, hx, hauth⟩
  · exact absurd hcall (by decide)

end Machine

end StarOs.Kernel
