import StarOs.Kernel.Delivery

/-! Why each event of the history is there. -/

namespace StarOs.Kernel

open Library

namespace Machine

variable {heap : Heap} {act : Act} {k k' : Machine} {t : ℕ} {x : Task}

/-- What the act that records an event did to record it. -/
def Explained (heap : Heap) (k k' : Machine) (act : Act) : Event → Prop
  | .sendAccepted t ep km via => k.current = some t ∧ k'.objects = k.objects ∧
      ((via = none ∧ ∃ n, act = .send n km) ∨ ∃ x frame r, via = some r ∧ act = .syscall frame ∧
        k.tasks[t]? = some x ∧ Entitled x frame k.objects ep r km)
  | .recvAccepted t ep via => k.current = some t ∧ k'.objects = k.objects ∧
      ((via = none ∧ ∃ n, act = .recv n) ∨ ∃ x frame r, via = some r ∧ act = .syscall frame ∧
        k.tasks[t]? = some x ∧ Authorised x k.objects frame.rdi.toUInt32 false ep r)
  | .spawned t grants => t = k.tasks.length ∧ ∃ stack space, act = .spawn stack space grants
  | .created r object =>
      Obj.create (heap.serves (k.objects.length + 1)) object k.objects = (some r, k'.objects)
  | .revoked r => Obj.revoke r k.objects = (true, k'.objects)
  | _ => True

theorem explained_of_back {ev : Event} (h : ev.back) : Explained heap k k' act ev := by
  cases ev with
  | sendReturned t r => trivial
  | recvReturned t r => trivial
  | sysret t rc rip => trivial
  | _ => cases h

/-- The receives of one decision, and what came back. -/
theorem RecvPost.grew {ep : ℕ} {caller : Caller} (h : RecvPost heap t ep caller x k k') :
    Grew (fun ev => ev.back ∨ ∃ e : Fin numEndpoints, e = ep ∧
      ev = .recvAccepted t e caller.via) k k' := by
  obtain ⟨x', -, ⟨-, hgrew⟩ | ⟨e, km, he, -, hdel⟩⟩ := h.own
  · exact hgrew.mono fun ev hev => hev.imp_left Event.back_of_closing
  · let k₁ : Machine := { k with log := .recvAccepted t e caller.via :: k.log }
    have hfirst : Grew (fun ev => ev.back ∨ ∃ e : Fin numEndpoints, e = ep ∧
        ev = .recvAccepted t e caller.via) k k₁ := .of_cons rfl (.inr ⟨e, he, rfl⟩)
    exact hfirst.trans ((Delivered.grew (k := k₁) hdel).mono fun ev hev => .inl hev.1)

theorem Outcome.explained (h : Outcome heap k k' act) : Grew (Explained heap k k' act) k k' := by
  have hquiet : Quiet k k' → Grew (Explained heap k k' act) k k' := fun h =>
    h.grew.mono fun ev hev => explained_of_back (Event.back_of_closing hev)
  cases h with
  | quiet h => exact hquiet h
  | joined task hcaps hmail htasks hcoh hwire hipc hobj hlog =>
    exact .of_cons hlog ⟨rfl, _, _, rfl⟩
  | served t x hk hx h =>
    cases h with
    | early rc h =>
      obtain ⟨rip, hlog⟩ := h.log
      exact .of_cons hlog trivial
    | quiet hcall h => exact hquiet h
    | sent hcall n obj km hent h =>
      refine h.grew.mono fun ev hev => ?_
      rcases hev with hev | ⟨e, rfl, rfl⟩
      · exact explained_of_back (Event.back_of_closing hev)
      · exact ⟨hk, h.objects, .inr ⟨x, _, obj, rfl, rfl, hx, hent⟩⟩
    | received hcall n obj corrupt hauth hwrite h =>
      refine h.grew.mono fun ev hev => ?_
      rcases hev with hev | ⟨e, rfl, rfl⟩
      · exact explained_of_back hev
      · exact ⟨hk, h.objects, .inr ⟨x, _, obj, rfl, rfl, hx, hauth⟩⟩
    | revoked hcall c hcap hobj htasks hipc hsched rip hlog =>
      exact ⟨[_, _], hlog, by simp [Explained, hobj]⟩
  | sent t hk h =>
    refine h.grew.mono fun ev hev => ?_
    rcases hev with hev | ⟨e, -, rfl⟩
    · exact explained_of_back (Event.back_of_closing hev)
    · exact ⟨hk, h.objects, .inl ⟨rfl, _, rfl⟩⟩
  | received t x hk hx h =>
    refine h.grew.mono fun ev hev => ?_
    rcases hev with hev | ⟨e, -, rfl⟩
    · exact explained_of_back hev
    · exact ⟨hk, h.objects, .inl ⟨rfl, _, rfl⟩⟩
  | stored t x mem hk hx h => exact .of_log (h ▸ rfl)
  | created htasks hsched hipc hobj =>
    rcases hobj with ⟨-, hlog⟩ | ⟨r, hcreate, hlog⟩
    · exact .of_log hlog
    · exact .of_cons hlog hcreate
  | destroyed htasks hsched hipc hobj =>
    rcases hobj with ⟨-, hlog⟩ | ⟨hrevoke, hlog⟩
    · exact .of_log hlog
    · exact .of_cons hlog hrevoke
  | resumed h =>
    cases h with
    | quiet h => exact hquiet h
    | delivered _ _ _ _ _ _ _ _ _ _ _ _ _ _ _ _ hdel =>
      exact hdel.grew.mono fun ev hev => explained_of_back hev.1

end Machine

end StarOs.Kernel
