import Mpss.Systools.Requests

namespace Mpss.Proofs.HandlersGuarded
open Library.Outcomes Systools.Requests

variable (admin isOpen : Bool)

/-- A service is used for an administrator only, and the port is looked at while the endpoint is
open. -/
def Permitted (q : Query) : Prop :=
  (q = .isFromRoot → isOpen = true) ∧ ∀ op,q = .device op → admin = true

/-- While the endpoint is open its port tells an administrator. -/
def Truthful : Bool → (q : Query) → Answer q → Prop
  | _,.isFromRoot,answer => answer = admin
  | _,_,_ => True

def stays (q : Query) : Bool := if q = .close then false else isOpen

def Guarded (p : Handler) : Prop :=
  Safe (Permitted admin) (Truthful admin) stays isOpen p

/-- The rest of a handler that does not look at the port again. -/
def Plain (p : Handler) : Prop := ∀ isOpen,Guarded admin isOpen p

variable {admin isOpen : Bool}

theorem Guarded.ok (h : Guarded admin isOpen (.ask q next)) : Permitted admin isOpen q := h.1

theorem Guarded.next {next : Answer q → Handler} (h : Guarded admin isOpen (.ask q next))
    (ha : Truthful admin isOpen q a) : Guarded admin (stays isOpen q) (next a) := h.2 a ha

theorem Plain.ask (hr : q ≠ .isFromRoot) (hd : ∀ op,q = .device op → admin = true)
    (hn : ∀ a,Plain admin (next a)) : Plain admin (.ask q next) := by
  intro isOpen
  exact ⟨⟨fun h => absurd h hr,hd⟩,fun a _ => hn a _⟩

theorem Plain.quiet {next : Answer q → Handler} (hn : ∀ a,Plain admin (next a))
    (hr : q ≠ .isFromRoot := by simp)
    (hd : ∀ op,q ≠ .device op := by simp) : Plain admin (.ask q next) :=
  .ask hr (fun op h => absurd h (hd op)) hn

theorem Plain.send {next : Answer (.send message) → Handler}
    (he : ∀ failure,Plain admin (next (.error failure)))
    (ho : ∀ a,Plain admin (next (.ok a))) : Plain admin (.ask (.send message) next) := by
  refine .quiet ?_
  rintro (failure | a)
  · exact he failure
  · exact ho a

theorem Plain.device {next : Answer (.device op) → Handler}
    (he : ∀ failure,Plain true (next (.error failure)))
    (ho : ∀ a,Plain true (next (.ok a))) : Plain true (.ask (.device op) next) := by
  refine .ask (by simp) (fun _ _ => rfl) ?_
  rintro (failure | a)
  · exact he failure
  · exact ho a

theorem plain_done : Plain admin .done := fun _ => trivial

theorem plain_replyError (hn : Plain admin next) : Plain admin (replyError nr req next) :=
  .send (fun _ => .quiet fun _ => hn) (fun _ => hn)

theorem plain_replyCaught (hn : Plain admin next) {failure : Failure} :
    Plain admin (replyCaught failure req next) := by
  cases failure with
  | systoolsd error | other => exact plain_replyError hn

structure PlainExits (admin : Bool) (exits : Exits) : Prop where
  ret : Plain admin exits.ret
  throw : ∀ req failure,Plain admin (exits.throw req failure)

theorem plain_inTurn (ops : List Device) (ht : ∀ failure,Plain true (thrown failure))
    (hn : Plain true next) : Plain true (inTurn ops thrown next) := by
  induction ops with
  | nil => exact hn
  | cons op ops ih => exact .device ht (fun _ => ih)

section
variable (h : PlainExits admin exits)
include h

theorem PlainExits.caught (failure : Failure) : Plain admin (caughtHere req exits failure) := by
  cases failure with
  | systoolsd error => exact plain_replyError h.ret
  | other => exact h.throw _ _

theorem plain_finalSend (more : List Message) : Plain admin (finalSend req more exits) := by
  refine .send (fun _ => plain_replyCaught h.ret) fun _ => ?_
  cases more with
  | nil => exact h.ret
  | cons message _ => exact .send (fun _ => plain_replyCaught h.ret) (fun _ => h.ret)

theorem plain_requestHandler : Plain admin (requestHandler req exits) := by
  unfold requestHandler
  split
  · refine .quiet ?_
    rintro (failure | raw)
    · exact plain_replyCaught h.ret
    refine .send (fun _ => plain_replyCaught h.ret) fun _ => ?_
    exact .send (fun _ => plain_replyCaught h.ret) (fun _ => h.ret)
  · exact plain_replyError h.ret

theorem guarded_fromRoot (hg : admin = true → Plain true granted) :
    Guarded admin true (fromRoot req exits granted) := by
  refine ⟨⟨fun _ => rfl,by simp⟩,?_⟩
  rintro root (rfl : root = admin)
  cases root with
  | false => exact plain_replyError h.ret _
  | true => exact hg rfl _

theorem guarded_setRequestHandler : Guarded admin true (setRequestHandler req exits) := by
  unfold setRequestHandler
  split
  · exact plain_replyError h.ret _
  refine guarded_fromRoot h ?_
  rintro rfl
  refine .device ?_ fun _ => .send ?_ (fun _ => h.ret)
  · rintro (_ | _)
    · exact plain_replyError h.ret
    · exact h.throw _ _
  · rintro (_ | _)
    · exact .quiet (fun _ => h.ret)
    · exact h.throw _ _

theorem guarded_smcRwHandler : Guarded admin true (smcRwHandler req exits) := by
  refine guarded_fromRoot h ?_
  rintro rfl
  split
  · exact plain_replyError h.ret
  refine .device ?_ (fun _ => plain_replyError h.ret)
  rintro (_ | _)
  · exact plain_replyError (plain_replyError h.ret)
  · exact h.throw _ _

theorem guarded_turboRequestHandler : Guarded admin true (turboRequestHandler req exits) := by
  refine guarded_fromRoot h ?_
  rintro rfl
  refine .device (fun _ => h.throw _ _) fun _ => plain_replyError (.quiet ?_)
  rintro (failure | _)
  · exact h.throw _ _
  · exact h.ret

theorem guarded_pthreshRequestHandler : Guarded admin true (pthreshRequestHandler req exits) := by
  refine guarded_fromRoot h ?_
  rintro rfl
  refine .device h.caught fun _ => .send h.caught fun _ => .quiet ?_
  intro received
  split
  · exact .quiet (fun _ => h.ret)
  refine plain_inTurn _ h.caught (.quiet ?_)
  rintro (failure | _)
  · exact h.throw _ _
  · exact .send (fun _ => h.throw _ _) (fun _ => h.ret)

end

theorem plain_serveReadRequest (h : PlainExits true exits) (fields : Nat) :
    Plain true (serveReadRequest req cmd prop exits settings fields) := by
  induction settings generalizing fields with
  | nil => exact plain_finalSend h _
  | cons s rest ih =>
    unfold serveReadRequest
    split
    · exact .device h.caught (fun _ => ih _)
    · exact ih _

theorem plain_serveWriteRequest (h : PlainExits true exits) :
    Plain true (serveWriteRequest req prop fields exits settings) := by
  induction settings with
  | nil => exact plain_finalSend h _
  | cons s rest ih =>
    unfold serveWriteRequest
    split
    · split
      · exact plain_replyError h.ret
      · exact .device h.caught (fun _ => ih)
    · exact ih

theorem plain_serveChangePasswordRequest (h : PlainExits true exits) :
    Plain true (serveChangePasswordRequest req exits) := by
  unfold serveChangePasswordRequest
  split
  · exact plain_replyError h.ret
  refine .send h.caught fun _ => ?_
  dsimp only
  split
  · exact .device h.caught (fun _ => plain_finalSend h _)
  refine .quiet ?_
  intro received
  split
  · exact plain_replyError h.ret
  · exact .device h.caught (fun _ => plain_finalSend h _)

theorem guarded_micBiosRequestHandler (h : PlainExits admin exits) :
    Guarded admin true (micBiosRequestHandler req exits) := by
  refine guarded_fromRoot h ?_
  rintro rfl
  refine .send (fun _ => h.throw _ _) fun _ => .quiet ?_
  intro received
  dsimp only
  split
  · exact plain_replyError (.quiet (fun _ => h.ret))
  split
  · exact plain_serveReadRequest h _
  · exact plain_serveWriteRequest h
  · exact plain_serveChangePasswordRequest h
  · exact plain_replyError h.ret

end Mpss.Proofs.HandlersGuarded
