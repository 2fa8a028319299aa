import StarOs.Kernel.Mediation

/-! What revoking an endpoint object cuts off. A reference is asked about when a call
is decided and not again, so a revocation stops the calls still to come; what an
endpoint has accepted by then, and who sleeps on it, it leaves where it is. -/

namespace StarOs.Kernel

open Library

/-- The event accepts a call on `ep` through `r`. -/
def Event.accepts (ep : Fin numEndpoints) (r : ObjectRef) : Event → Prop
  | .sendAccepted _ e _ via => e = ep ∧ via = some r
  | .recvAccepted _ e via => e = ep ∧ via = some r
  | _ => False

namespace Machine

variable {heap : Heap} {act : Act} {k k' : Machine} {r : ObjectRef} {object : Object}

/-- The object `r` names was created in this history and not revoked since. -/
def Standing (r : ObjectRef) (object : Object) (log : List Event) : Prop :=
  ∃ mid pre, log = mid ++ .created r object :: pre ∧ .revoked r ∉ mid

theorem Standing.later {log evs : List Event} (h : Standing r object log) (hno : .revoked r ∉ evs) :
    Standing r object (evs ++ log) := by
  obtain ⟨mid, pre, rfl, hmid⟩ := h
  refine ⟨evs ++ mid, pre, by simp, ?_⟩
  rw [List.mem_append]
  exact fun hmem => hmem.elim hno hmid

/-- After its revocation, a reference stands only if it has been created anew. -/
theorem Standing.created_of_revoked {post pre : List Event}
    (h : Standing r object (post ++ .revoked r :: pre)) : .created r object ∈ post := by
  obtain ⟨mid, pre', heq, hmid⟩ := h
  rcases List.append_eq_append_iff.mp heq with ⟨as, rfl, has⟩ | ⟨bs, rfl, hbs⟩
  · -- the creation would lie before the revocation
    cases as with
    | nil => simp at has
    | cons ev as =>
      obtain ⟨rfl, -⟩ := List.cons.inj has
      simp at hmid
  · cases bs with
    | nil => simp at hbs
    | cons ev bs =>
      obtain ⟨rfl, -⟩ := List.cons.inj hbs
      simp

/-- A call is accepted through a reference that names its endpoint then and there, by
an act that leaves the objects alone. -/
theorem Explained.accepts {ev : Event} {ep : Fin numEndpoints} (h : Explained heap k k' act ev)
    (hev : ev.accepts ep r) :
    k'.objects = k.objects ∧ Obj.get k.objects r = some (.endpoint ep) := by
  cases ev with
  | sendAccepted t e km via =>
    obtain ⟨rfl, rfl⟩ := hev
    obtain ⟨-, hobj, ⟨hvia, -⟩ | ⟨x, frame, r', hvia, -, -, hent⟩⟩ := h
    · cases hvia
    · obtain rfl := Option.some.inj hvia
      obtain ⟨send, recv, -, -, hget⟩ := hent.authorised
      exact ⟨hobj, hget⟩
  | recvAccepted t e via =>
    obtain ⟨rfl, rfl⟩ := hev
    obtain ⟨-, hobj, ⟨hvia, -⟩ | ⟨x, frame, r', hvia, -, -, send, recv, -, -, hget⟩⟩ := h
    · cases hvia
    · obtain rfl := Option.some.inj hvia
      exact ⟨hobj, hget⟩
  | _ => cases hev

/-- An act that leaves the objects alone revokes none. -/
theorem Explained.not_revoked {ev : Event} (h : Explained heap k k' act ev)
    (hobj : k'.objects = k.objects) : ev ≠ .revoked r := by
  rintro rfl
  have hrev : Obj.revoke r k.objects = (true, k'.objects) := h
  have hlive : (Obj.get k'.objects r).isSome := by
    rw [hobj, ← Obj.revoke_fst, hrev]
  obtain ⟨o, ho⟩ := Option.isSome_iff_exists.mp hlive
  exact (Obj.get_revoke hrev ho).2 rfl

/-- The ways an act changes the object table. -/
theorem Outcome.objects (h : Outcome heap k k' act) :
    k'.objects = k.objects ∨
      (∃ r object, Obj.create (heap.serves (k.objects.length + 1)) object k.objects =
        (some r, k'.objects) ∧ k'.log = .created r object :: k.log) ∨
      ∃ r evs, Obj.revoke r k.objects = (true, k'.objects) ∧ k'.log = evs ++ .revoked r :: k.log ∧
        (∀ r', .revoked r' ∉ evs) ∧ k'.tasks = k.tasks ∧ k'.ipc = k.ipc := by
  cases h with
  | quiet h => exact .inl h.objects
  | joined _ _ _ _ _ _ _ hobj => exact .inl hobj
  | served t x hk hx h =>
    cases h with
    | early rc h => exact .inl h.own.objects
    | quiet hcall h => exact .inl h.objects
    | sent hcall n obj km hent h => exact .inl h.objects
    | received hcall n obj corrupt hauth hwrite h => exact .inl h.objects
    | revoked hcall c hcap hobj htasks hipc hsched rip hlog =>
      exact .inr (.inr ⟨c.object, [.sysret t (.ok 0) rip], hobj, hlog, by simp, htasks, hipc⟩)
  | sent t hk h => exact .inl h.objects
  | received t x hk hx h => exact .inl h.objects
  | stored t x mem hk hx h => exact .inl (h ▸ rfl)
  | created _ _ _ hobj =>
    rcases hobj with ⟨hobj, -⟩ | ⟨r, hcreate, hlog⟩
    · exact .inl hobj
    · exact .inr (.inl ⟨r, _, hcreate, hlog⟩)
  | destroyed htasks hsched hipc hobj =>
    rcases hobj with ⟨hobj, -⟩ | ⟨hrevoke, hlog⟩
    · exact .inl hobj
    · exact .inr (.inr ⟨_, [], hrevoke, hlog, by simp, htasks, hipc⟩)
  | resumed h =>
    cases h with
    | quiet h => exact .inl h.objects
    | delivered _ _ _ _ _ _ _ _ _ _ _ _ _ _ hobj => exact .inl hobj

/-- What the history says of an object table: what resolves stands. -/
def Recorded (k : Machine) : Prop :=
  ∀ r object, Obj.get k.objects r = some object → Standing r object k.log

theorem Recorded.step (h : Recorded k) (hout : Outcome heap k k' act) : Recorded k' := by
  obtain ⟨evs, hlog, hall⟩ := hout.explained
  intro r object hget
  rcases hout.objects with hobj | ⟨r', object', hcreate, hlog'⟩ | ⟨r', evs', hrevoke, hlog', hno, -⟩
  · rw [hlog]
    refine (h r object (hobj ▸ hget)).later fun hmem => ?_
    exact (hall _ hmem).not_revoked hobj rfl
  · rw [hlog']
    rcases Obj.get_create hcreate hget with hold | ⟨rfl, rfl⟩
    · have hno : Event.revoked r ∉ [Event.created r' object'] := by simp
      exact (h r object hold).later hno
    · exact ⟨[], _, rfl, by simp⟩
  · obtain ⟨hold, hne⟩ := Obj.get_revoke hrevoke hget
    rw [hlog', List.append_cons]
    refine (h r object hold).later ?_
    simpa [hne] using hno r

/-- Every accepted call is vouched for: its reference stood when it was accepted. -/
def Vouched (log : List Event) : Prop :=
  ∀ post ev pre ep r, log = post ++ ev :: pre → Event.accepts ep r ev →
    Standing r (.endpoint ep) pre

theorem Vouched.step (h : Vouched k.log) (hrec : Recorded k) (hout : Outcome heap k k' act) :
    Vouched k'.log := by
  obtain ⟨evs, hlog, hall⟩ := hout.explained
  intro post ev pre ep r heq hev
  rw [hlog] at heq
  rcases List.append_eq_append_iff.mp heq with ⟨post', -, hold⟩ | ⟨evs', hnew, hpre⟩
  · exact h post' ev pre ep r hold hev
  · cases evs' with
    | nil => exact h [] ev pre ep r hpre.symm hev
    | cons ev' evs' =>
      obtain ⟨rfl, rfl⟩ := List.cons.inj hpre
      obtain ⟨hobj, hget⟩ := (hall ev (by simp [hnew])).accepts hev
      refine (hrec r _ hget).later fun hmem => ?_
      exact (hall (.revoked r) (by simp [hnew, hmem])).not_revoked hobj rfl

theorem Reachable.vouched (h : Reachable k) : Recorded k ∧ Vouched k.log := by
  obtain ⟨root, hrun⟩ := h
  induction hrun with
  | refl =>
    refine ⟨fun r object hget => ?_, fun post ev pre ep r heq => ?_⟩
    · simp [init, Obj.get] at hget
    · simp [init] at heq
  | @tail k k' l hrun _ hmove ih =>
    obtain ⟨hc, hq, -⟩ := Run.from_boot (S := fun _ => True) hrun
    have hout := outcome_of_step hc hq hmove.1 hmove.2
    exact ⟨ih.1.step hout, ih.2.step ih.1 hout⟩

/-- The act that revokes leaves every task and every endpoint as it was. -/
theorem Outcome.revoked (h : Outcome heap k k' act) {evs : List Event}
    (hlog : k'.log = evs ++ k.log) (hmem : .revoked r ∈ evs) :
    k'.tasks = k.tasks ∧ k'.ipc = k.ipc ∧ ¬ (Obj.get k'.objects r).isSome := by
  obtain ⟨evs', hlog', hall⟩ := h.explained
  obtain rfl : evs = evs' := List.append_cancel_right (hlog.symm.trans hlog')
  have hrevoke : Obj.revoke r k.objects = (true, k'.objects) := hall _ hmem
  have hgone : ¬ (Obj.get k'.objects r).isSome := fun hsome => by
    obtain ⟨o, ho⟩ := Option.isSome_iff_exists.mp hsome
    exact (Obj.get_revoke hrevoke ho).2 rfl
  rcases h.objects with hobj | ⟨r', object, -, hlog'⟩ | ⟨r', evs', -, -, -, htasks, hipc⟩
  · exact absurd rfl ((hall _ hmem).not_revoked hobj)
  · obtain rfl : evs = [.created r' object] :=
      List.append_cancel_right (hlog.symm.trans hlog')
    simp at hmem
  · exact ⟨htasks, hipc, hgone⟩

/-- Task 0 sends through its handle and revokes the object; a task spawned with a
capability on a new object for the same endpoint receives. -/
def surviving : List Act :=
  [.create (.endpoint 2), .spawn (some 0x1000) (some flat) [.endpoint ⟨0, 0⟩ true true],
    .spawn (some 0x2000) none [], .start, .resume, .syscall ⟨1, 1, 0x2000, 0⟩,
    .syscall ⟨6, 1, 0, 0⟩, .syscall ⟨0, 0, 0, 0⟩, .resume, .create (.endpoint 2),
    .spawn (some 0x3000) (some flat) [.endpoint ⟨0, 1⟩ false true], .timer, .resume,
    .syscall ⟨2, 1, 0x3000, 0⟩]

/-- Revocation stops the calls to come and leaves what was accepted alone: an endpoint
accepts a call only through a reference created for it and not revoked since; so after
`r` is revoked no call is accepted through `r` unless a later create returns `r` again;
and the revocation itself moves no task, no queue and no message. -/
theorem revocation_stops_calls (h : Reachable k) :
    (∀ post ev pre ep r, k.log = post ++ ev :: pre → Event.accepts ep r ev →
      Standing r (.endpoint ep) pre) ∧
    (∀ post pre r, k.log = post ++ .revoked r :: pre → (∀ object, .created r object ∉ post) →
      ∀ ev ep, ev ∈ post → ¬ Event.accepts ep r ev) ∧
    (∀ heap act k' evs r, k.Enabled act → k.step heap act = .ok k' → k'.log = evs ++ k.log →
      .revoked r ∈ evs →
      k'.tasks = k.tasks ∧ k'.ipc = k.ipc ∧ ¬ (Obj.get k'.objects r).isSome) := by
  obtain ⟨hc, hq, -⟩ := h.sound
  obtain ⟨-, hvouch⟩ := h.vouched
  refine ⟨hvouch, ?_, ?_⟩
  · intro post pre r hlog hno ev ep hmem hev
    obtain ⟨p₁, p₂, rfl⟩ := List.append_of_mem hmem
    have hstands := hvouch p₁ ev (p₂ ++ .revoked r :: pre) ep r (by simp [hlog]) hev
    exact hno _ (List.mem_append_right _ (List.mem_cons_of_mem _ hstands.created_of_revoked))
  · intro heap act k' evs r he hs hlog hmem
    exact (outcome_of_step hc hq he hs).revoked hlog hmem

/-- The new object's receive is accepted on the new object's authority. -/
theorem revocation_stops_calls_surviving :
    Standing ⟨0, 1⟩ (.endpoint delegatedEp) ((after surviving).log.drop 3) :=
  (revocation_stops_calls (after_reachable (by decide) : Reachable (after surviving))).1
    [.sysret 2 (.ok 0) 0, .recvReturned 2 (.ok ⟨Message.new 0, none⟩)]
    (.recvAccepted 2 delegatedEp (some ⟨0, 1⟩)) ((after surviving).log.drop 3) delegatedEp ⟨0, 1⟩ rfl
    ⟨rfl, rfl⟩

/-! ### What revocation does not cut off -/

/-- A history in which `r` is revoked and then an object created for endpoint `ep`. -/
def renewed (ep : Fin numEndpoints) (r r' : ObjectRef) (mid before : List Event) : List Event :=
  .created r' (.endpoint ep) :: (mid ++ .revoked r :: before)

/-- No message accepted through `r` before its revocation comes back from a `Recv`
authorised with the new object. -/
def OldTrafficStops (log : List Event) : Prop :=
  ∀ (ep : Fin numEndpoints) (r r' : ObjectRef) (b₁ b₂ mid p m post : List Event) (s t : ℕ)
    (km km' : KMessage),
    let start := p ++ renewed ep r r' mid (b₁ ++ .sendAccepted s ep km (some r) :: b₂)
    .created r (.endpoint ep) ∈ b₂ →
    log = post ++ .recvReturned t (.ok km') :: (m ++ .recvAccepted t ep (some r') :: start) →
    (∀ km, .recvReturned t (.ok km) ∉ m) →
    acceptedRecvs ep start ≠ (acceptedSends ep b₂).length

/-- No task parked in a `Recv` through `r` when it is revoked comes back with a message
sent through the new object. -/
def OldReceiversStarve (log : List Event) : Prop :=
  ∀ (ep : Fin numEndpoints) (r r' : ObjectRef) (b₁ b₂ mid p m post : List Event) (s t : ℕ)
    (km : KMessage),
    let start := p ++ renewed ep r r' mid (b₁ ++ .recvAccepted t ep (some r) :: b₂)
    .created r (.endpoint ep) ∈ b₂ →
    log = post ++ .recvReturned t (.ok km) :: (m ++ .sendAccepted s ep km (some r') :: start) →
    (∀ km, .recvReturned t (.ok km) ∉ m ++ p ++ mid ++ b₁) →
    (acceptedSends ep start).length ≠ acceptedRecvs ep b₂

/-- Task 0 parks in `Recv`, its object is revoked, and a task spawned with a capability on
a new object for the same endpoint sends. -/
def sleeping : List Act :=
  [.create (.endpoint 2), .spawn (some 0x1000) (some flat) [.endpoint ⟨0, 0⟩ false true],
    .spawn (some 0x2000) none [], .start, .resume, .syscall ⟨2, 1, 0x3000, 0⟩, .resume,
    .revoke ⟨0, 0⟩, .create (.endpoint 2),
    .spawn (some 0x3000) (some flat) [.endpoint ⟨0, 1⟩ true false], .timer, .resume,
    .syscall ⟨1, 1, 0x2000, 0⟩, .syscall ⟨0, 0, 0, 0⟩, .resume]

/-- The message survives the revocation, and so does the sleeper. -/
theorem revocation_leaves_traffic :
    (Reachable (after surviving) ∧ ¬ OldTrafficStops (after surviving).log) ∧
    (Reachable (after sleeping) ∧ ¬ OldReceiversStarve (after sleeping).log) := by
  let km : KMessage := ⟨Message.new 0, none⟩
  refine ⟨⟨after_reachable (by decide), fun h => ?_⟩, ⟨after_reachable (by decide), fun h => ?_⟩⟩
  · -- the new object's first receive gets the old object's only message
    refine h delegatedEp ⟨0, 0⟩ ⟨0, 1⟩ [.sysret 0 (.ok 0) 0, .sendReturned 0 (.ok ())]
      [.spawned 1 [], .spawned 0 [.endpoint ⟨0, 0⟩ true true], .created ⟨0, 0⟩ (.endpoint 2)]
      [.sysret 0 (.ok 0) 0] [.spawned 2 [.endpoint ⟨0, 1⟩ false true]] []
      [.sysret 2 (.ok 0) 0] 0 2 km km ?_ rfl ?_ rfl
    · simp [delegatedEp]
    · simp
  · -- the old object's sleeper gets the new object's first message
    refine h delegatedEp ⟨0, 0⟩ ⟨0, 1⟩ []
      [.spawned 1 [], .spawned 0 [.endpoint ⟨0, 0⟩ false true], .created ⟨0, 0⟩ (.endpoint 2)]
      [] [.spawned 2 [.endpoint ⟨0, 1⟩ true false]]
      [.sysret 2 (.ok 0) 0, .sendReturned 2 (.ok ())] [.sysret 0 (.ok 0) 0] 2 0 km ?_ rfl ?_ rfl
    · simp [delegatedEp]
    · simp

end Machine

end StarOs.Kernel
