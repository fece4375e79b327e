import Mpss.Library.Runs
import Mpss.Proofs.HandlersGuarded
import Mpss.Systools.Daemon

namespace Mpss.Proofs.SessionsApart
open List hiding after
open Systools.Requests Systools.Daemon HandlersGuarded Function
open Option hiding choice

section
theorem plain_release : Plain admin (.ask .releaseRequest fun _ => .done) :=
    .quiet (fun _ => plain_done)

theorem guarded_run
    (h : ∀ exits,PlainExits admin exits → Guarded admin true (handle req exits)) :
    Guarded admin true (run req handle) := by
  refine ⟨⟨by simp,by simp⟩,?_⟩
  intro acquired _
  dsimp only
  split
  · exact h _ ⟨plain_release,fun req failure => plain_replyCaught plain_release⟩
  · exact plain_replyError plain_release _

theorem guarded_queued {next : Unit → Handler} (h : ∀ a,Guarded admin true (next a)) :
    Guarded admin true (.ask .queued next) := ⟨⟨by simp,by simp⟩,fun a _ => h a⟩

theorem guarded_restartSmba : Guarded admin true (restartSmba req) := by
  have hq : ∀ error : Nat,Plain admin
      (.ask .queued fun _ => run req fun req exits => replyError error req exits.ret) := by
    intro error
    refine .quiet (fun _ => .quiet ?_)
    intro acquired
    split
    all_goals exact plain_replyError plain_release
  refine ⟨⟨fun _ => rfl,by simp⟩,?_⟩
  rintro root (rfl : root = admin)
  cases root with
  | false => exact hq _ _
  | true =>
    refine Plain.device ?_ (fun busy => ?_) _
    · rintro (_ | _)
      all_goals exact hq _
    dsimp only
    split
    · exact hq _
    · refine .device ?_ (fun _ => hq _)
      rintro (_ | _)
      all_goals exact hq _

/-- Every request looks at the port of its session before it uses a service. -/
theorem guarded_createRequest : Guarded admin true (createRequest req) := by
  unfold createRequest
  split
  · exact guarded_restartSmba
  refine guarded_queued (fun _ => ?_)
  split
  · exact guarded_run (fun _ h => guarded_smcRwHandler h)
  split
  · exact guarded_run (fun _ h => guarded_pthreshRequestHandler h)
  split
  · exact guarded_run (fun _ h => guarded_turboRequestHandler h)
  split
  · exact guarded_run (fun _ h => guarded_micBiosRequestHandler h)
  split
  · exact guarded_run (fun _ h => guarded_setRequestHandler h)
  · exact guarded_run (fun _ h => plain_requestHandler h _)

end

/-- An administrator's request takes effect, a request is spoken about on its own connection, and a
descriptor is closed for its own peer's fault. -/
def Fine : Event → Prop
  | .effect _ port => port < SCIF_ADMIN_PORT_END
  | .exchanged source conn => conn = source
  | .closed _ fault => fault = true

def admin (s : State) (conn : Nat) : Bool := (s.peer conn).port < SCIF_ADMIN_PORT_END

/-- The session of a request is in progress and belongs to the connection that it came from; what is
left of the handler uses a service for an administrator only. -/
def Served (s : State) (h : Running) : Prop :=
  ∃ e isOpen,s.objects h.sess = some e ∧ e.inProgress = true ∧ e.conn = h.source ∧
    (isOpen = true → (s.table e.ep).isSome = true) ∧ Guarded (admin s h.source) isOpen h.prog

/-- The invariant but for the serving thread, with the requests that are being executed. -/
structure Core (s : State) (reqs : List Running) : Prop where
  fresh : ∀ o,s.made ≤ o → s.objects o = none
  apart : ∀ o p e f,s.objects o = some e → s.objects p = some f → e.ep = f.ep → o = p
  owned : ∀ fd c,s.table fd = some c → ∃ o e,s.objects o = some e ∧ e.ep = fd ∧ e.conn = c ∧
    e.port = (s.peer c).port
  known : ∀ o e,s.objects o = some e → e.conn < s.conns
  waiting : ∀ c ∈ s.pending,c < s.conns
  keyed : ∀ fd o,s.sessions fd = some o → ∃ e,s.objects o = some e ∧ e.ep = fd
  new : ∀ o ∈ s.acceptor.holds,(s.objects o).isSome = true
  served : ∀ h ∈ reqs,Served s h
  alone : (reqs.map Running.sess).Nodup
  kept : ∀ fd c,s.table fd = some c → s.faulty c = false → ∃ o e,s.objects o = some e ∧ e.ep = fd ∧
    (s.sessions fd = some o ∨ o ∈ reqs.map Running.sess ∨ s.acceptor = .accepted o)
  fine : ∀ ev ∈ s.log,Fine ev

variable {s t : State}

theorem setPeer_port (hp : p.port = (s.peer c).port) :
    ((s.setPeer c p).peer c').port = (s.peer c').port := by
  unfold State.setPeer
  by_cases hc : c' = c
  · subst hc
    simpa using hp
  · simp [hc]

theorem setPeer_faulty (hf : s.faulty c = true → (p.hung || p.mistaken) = true)
    (h : (s.setPeer c p).faulty c' = false) : s.faulty c' = false := by
  by_cases hc : c' = c
  · subst hc
    by_contra hno
    have := hf (by simpa using hno)
    simp only [State.faulty,State.setPeer,update_self] at h
    rw [this] at h
    cases h
  · simpa [State.faulty,State.setPeer,hc] using h

theorem setPeer_admin (hp : p.port = (s.peer c).port) (c' : Nat) :
    admin (s.setPeer c p) c' = admin s c' := by
  unfold admin
  rw [setPeer_port hp]

theorem scifClose_eq (hl : ∀ ev ∈ s.log,Fine ev) (hf : ∀ c,s.table fd = some c → s.faulty c = true) :
    ∃ log,(∀ ev ∈ log,Fine ev) ∧ scifClose s fd = { s with
      table := update s.table fd none,log := log } := by
  unfold scifClose
  split
  · rename_i hn
    refine ⟨s.log,hl,?_⟩
    rw [← hn,update_eq_self]
  · rename_i c hc
    exact ⟨.closed c (s.faulty c) :: s.log,forall_mem_cons.mpr ⟨hf c hc,hl⟩,rfl⟩

section
variable (h : Core s reqs)
include h

/-- An open descriptor is the connection of the one object that has its number. -/
theorem Core.own (ho : s.objects o = some e) (ht : s.table e.ep = some c) :
    e.conn = c ∧ e.port = (s.peer c).port := by
  obtain ⟨p,f,hp,hep,hc,hpr⟩ := h.owned e.ep c ht
  obtain rfl := h.apart p o f e hp ho hep
  rw [ho] at hp
  cases hp
  exact ⟨hc,hpr⟩

theorem Core.connOf (ho : s.objects o = some e) (hc : s.connOf o = some c) : c = e.conn := by
  simp only [State.connOf,ho,bind_some] at hc
  exact (h.own ho hc).1.symm

theorem Core.setPeer (hpr : p.port = (s.peer c).port)
    (hfl : s.faulty c = true → (p.hung || p.mistaken) = true) : Core (s.setPeer c p) reqs := by
  refine { h with owned := ?_,served := ?_,kept := ?_ }
  · intro fd c' ht
    obtain ⟨o,e,ho,hep,hcn,he⟩ := h.owned fd c' ht
    exact ⟨o,e,ho,hep,hcn,by rw [he,setPeer_port hpr]⟩
  · intro r hr
    obtain ⟨e,isOpen,ho,hp,hc,hop,hg⟩ := h.served r hr
    exact ⟨e,isOpen,ho,hp,hc,hop,by rw [setPeer_admin hpr]; exact hg⟩
  · intro fd c' ht hf
    exact h.kept fd c' ht (setPeer_faulty hfl hf)

theorem Core.noted (hf : Fine ev) : Core { s with log := ev :: s.log } reqs :=
  { h with fine := forall_mem_cons.mpr ⟨hf,h.fine⟩ }

theorem Core.exchange (hc : ∀ c,conn = some c → c = source) : Core (s.exchange source conn) reqs := by
  unfold State.exchange
  split
  · exact h
  · exact h.noted (hc _ rfl)

theorem Core.removed (hsb : ∀ fd o,sessions fd = some o → s.sessions fd = some o)
    (hv : ∀ fd,s.invalid fd = false → sessions fd = s.sessions fd) :
    Core { s with sessions := sessions } reqs := by
  refine { h with keyed := fun fd o hs => h.keyed fd o (hsb fd o hs),kept := ?_ }
  intro fd c (ht : s.table fd = some c) (hf : s.faulty c = false)
  obtain ⟨o,e,ho,hep,hw⟩ := h.kept fd c ht hf
  have hok : s.invalid fd = false := by
    simp only [State.faulty,Bool.or_eq_false_iff] at hf
    simp [State.invalid,ht,hf.1]
  exact ⟨o,e,ho,hep,hw.imp_left (fun hs => (hv fd hok).trans hs)⟩

theorem Core.removeInvalid (works : Bool) : Core (removeInvalid s works) reqs := by
  unfold Systools.Daemon.removeInvalid
  split
  · refine h.removed ?_ ?_
    · intro fd o hs
      split at hs
      · cases hs
      · exact hs
    · intro fd hok
      simp [hok]
  · exact h

theorem Core.removeInvalidAt (hb : s.invalid fd = true) : Core (removeInvalidAt s fd) reqs := by
  unfold Systools.Daemon.removeInvalidAt
  split
  · exact h.removeInvalid true
  refine h.removed ?_ ?_
  · intro fd' o hs
    by_cases hfd : fd' = fd
    · subst hfd
      simp at hs
    · simpa [hfd] using hs
  · intro fd' hok
    have hfd : fd' ≠ fd := by
      rintro rfl
      rw [hb] at hok
      cases hok
    simp [hfd]

theorem Core.entered (ho : s.objects o = some e) :
    Core { s with sessions := update s.sessions e.ep (some o) } reqs := by
  refine { h with keyed := ?_,kept := ?_ }
  · intro fd p hs
    by_cases hfd : fd = e.ep
    · subst hfd
      simp only [update_self,Option.some.injEq] at hs
      exact ⟨e,hs ▸ ho,rfl⟩
    · exact h.keyed fd p (by simpa [hfd] using hs)
  · intro fd c ht hf
    obtain ⟨p,f,hp,hep,hw⟩ := h.kept fd c ht hf
    by_cases hfd : fd = e.ep
    · obtain rfl := h.apart p o f e hp ho (hep.trans hfd)
      exact ⟨p,f,hp,hep,.inl (by simp [hfd])⟩
    · exact ⟨p,f,hp,hep,by simpa [hfd] using hw⟩

theorem Core.changed (ho : s.objects o = some e)
    (hf : ∀ e',f = some e' → e'.ep = e.ep ∧ e'.conn = e.conn) :
    (∀ p,s.made ≤ p → update s.objects o f p = none) ∧
      (∀ p q x y,update s.objects o f p = some x → update s.objects o f q = some y →
      x.ep = y.ep → p = q) ∧
      ∀ p x,update s.objects o f p = some x → x.conn < s.conns := by
  have hb : ∀ p x,update s.objects o f p = some x →
      ∃ x0,s.objects p = some x0 ∧ x.ep = x0.ep ∧ x.conn = x0.conn := by
    intro p x hx
    rw [update_apply] at hx
    split_ifs at hx with hp
    · obtain ⟨hep,hcn⟩ := hf x hx
      exact ⟨e,hp ▸ ho,hep,hcn⟩
    · exact ⟨x,hx,rfl,rfl⟩
  refine ⟨?_,?_,?_⟩
  · intro p hp
    have hpo : p ≠ o := by
      rintro rfl
      rw [h.fresh p hp] at ho
      cases ho
    exact (update_of_ne hpo _ _).trans (h.fresh p hp)
  · intro p q x y hx hy hep
    obtain ⟨x0,hx0,hxp,_⟩ := hb p x hx
    obtain ⟨y0,hy0,hyp,_⟩ := hb q y hy
    exact h.apart p q x0 y0 hx0 hy0 (hxp.symm.trans (hep.trans hyp))
  · intro p x hx
    obtain ⟨x0,hx0,_,hcn⟩ := hb p x hx
    rw [hcn]
    exact h.known p x0 hx0

theorem Core.released (ho : s.objects o = some e) (hfa : ∀ c,s.table e.ep = some c → s.faulty c = true)
    (hf : ∀ e',f = some e' → e'.ep = e.ep ∧ e'.conn = e.conn ∧ e'.inProgress = e.inProgress)
    (hgn : f = none → s.sessions e.ep ≠ some o ∧ o ∉ s.acceptor.holds ∧ o ∉ reqs.map Running.sess)
    (hrq : ∀ r ∈ reqs,r.sess = o → Guarded (admin s r.source) false r.prog) :
    Core ((scifClose s e.ep).setObject o f) reqs := by
  obtain ⟨log,hl,heq⟩ := scifClose_eq h.fine hfa
  rw [heq]
  obtain ⟨hfr,hap,hkn⟩ := h.changed ho fun e' he => ⟨(hf e' he).1,(hf e' he).2.1⟩
  have hot : ∀ p,p ≠ o → update s.objects o f p = s.objects p := fun p hp => update_of_ne hp _ _
  have hsl : update s.objects o f o = f := update_self _ _ _
  have hcl : ∀ fd c,update s.table e.ep none fd = some c → fd ≠ e.ep ∧ s.table fd = some c := by
    intro fd c hc
    rw [update_apply] at hc
    split at hc
    · cases hc
    · rename_i hfd
      exact ⟨hfd,hc⟩
  have hne : ∀ p x,s.objects p = some x → x.ep ≠ e.ep → p ≠ o := by
    rintro p x hx hep rfl
    rw [ho] at hx
    cases hx
    exact hep rfl
  refine ⟨hfr,hap,?_,hkn,h.waiting,?_,?_,?_,h.alone,?_,hl⟩
  · intro fd c hc
    obtain ⟨hfd,hc⟩ := hcl fd c hc
    obtain ⟨p,x,hx,hep,hcn,hpr⟩ := h.owned fd c hc
    exact ⟨p,x,(hot p (hne p x hx (hep ▸ hfd))).trans hx,hep,hcn,hpr⟩
  · intro fd p (hs : s.sessions fd = some p)
    obtain ⟨x,hx,hep⟩ := h.keyed fd p hs
    by_cases hp : p = o
    · subst hp
      rw [ho] at hx
      cases hx
      cases hfe : f with
      | none => exact absurd (hep ▸ hs) (hgn hfe).1
      | some e' => exact ⟨e',hfe ▸ hsl,(hf e' hfe).1.trans hep⟩
    · exact ⟨x,(hot p hp).trans hx,hep⟩
  · intro p (hp : p ∈ s.acceptor.holds)
    show (update s.objects o f p).isSome = true
    by_cases hpo : p = o
    · subst hpo
      rw [hsl]
      cases hfe : f with
      | none => exact absurd hp (hgn hfe).2.1
      | some e' => rfl
    · rw [hot p hpo]
      exact h.new p hp
  · intro r hr
    obtain ⟨x,isOpen,hx,hbs,hcn,hop,hg⟩ := h.served r hr
    by_cases hp : r.sess = o
    · have hgr := hrq r hr hp
      rw [hp,ho] at hx
      cases hx
      cases hfe : f with
      | none => exact absurd (hp ▸ mem_map_of_mem hr) (hgn hfe).2.2
      | some e' =>
        obtain ⟨hep,hc',hpg⟩ := hf e' hfe
        have hob : update s.objects o (some e') r.sess = some e' := by
          rw [hp]
          exact update_self _ _ _
        exact ⟨e',false,hob,hpg.trans hbs,hc'.trans hcn,nofun,hgr⟩
    · have hep : x.ep ≠ e.ep := fun hep => hp (h.apart _ _ _ _ hx ho hep)
      refine ⟨x,isOpen,(hot _ hp).trans hx,hbs,hcn,?_,hg⟩
      intro ho'
      show (update s.table e.ep none x.ep).isSome = true
      rw [update_of_ne hep]
      exact hop ho'
  · intro fd c hc (hfl : s.faulty c = false)
    obtain ⟨hfd,hc⟩ := hcl fd c hc
    obtain ⟨p,x,hx,hep,hw⟩ := h.kept fd c hc hfl
    exact ⟨p,x,(hot p (hne p x hx (hep ▸ hfd))).trans hx,hep,hw⟩

theorem Core.shutdown (ho : s.objects o = some e) (hf : ∀ c,s.table e.ep = some c → s.faulty c = true)
    (hr : ∀ r ∈ reqs,r.sess = o → Guarded (admin s r.source) false r.prog) :
    Core (shutdown s o) reqs := by
  unfold Systools.Daemon.shutdown
  rw [ho]
  refine h.released ho hf ?_ nofun hr
  intro e' he
  cases he
  exact ⟨rfl,rfl,rfl⟩

end

/-- A client that is being looked after is not in progress, and what has been received came from
it. -/
def Current (s : State) : Server → Prop
  | .receiving _ _ client sess => sess = client ∧ ∃ e,s.objects client = some e ∧ e.inProgress = false
  | .flushing _ _ client sess _ source => sess = client ∧
      ∃ e,s.objects client = some e ∧ e.inProgress = false ∧ s.table e.ep = some source
  | .dispatching _ _ client sess _ source => sess = client ∧
      ∃ e,s.objects client = some e ∧ e.inProgress = false ∧ s.table e.ep = some source
  | _ => True

structure Phase (s : State) : Prop where
  held : ∀ o ∈ s.server.holds,(s.objects o).isSome = true
  current : Current s s.server

/-- Another thread leaves alone what the serving thread relies on. -/
structure Frame (s t : State) : Prop where
  server : t.server = s.server
  objects : ∀ o ∈ s.server.holds,∀ e,s.objects o = some e → ∃ e',t.objects o = some e' ∧
    (e.inProgress = false → e' = e ∧ ∀ c,s.table e.ep = some c → t.table e.ep = some c)

theorem Frame.refl (h : t.server = s.server) (ho : t.objects = s.objects)
    (ht : ∀ fd c,s.table fd = some c → t.table fd = some c) : Frame s t :=
  ⟨h,fun o _ e he => ⟨e,by rw [ho,he],fun _ => ⟨rfl,ht e.ep⟩⟩⟩

theorem Phase.frame (h : Phase s) (hf : Frame s t) : Phase t := by
  refine ⟨?_,?_⟩
  · intro o ho
    rw [hf.server] at ho
    obtain ⟨e,he⟩ := isSome_iff_exists.mp (h.held o ho)
    obtain ⟨e',he',_⟩ := hf.objects o ho e he
    rw [he']
    rfl
  · rw [hf.server]
    have hc := h.current
    have hob := hf.objects
    cases hs : s.server with
    | receiving ready rest client sess =>
      rw [hs] at hc hob
      obtain ⟨hss,e,he,hi⟩ := hc
      obtain ⟨e',he',hsm⟩ := hob client (by simp [Server.holds]) e he
      obtain ⟨rfl,_⟩ := hsm hi
      exact ⟨hss,e',he',hi⟩
    | flushing ready rest client sess received source
    | dispatching ready rest client sess received source =>
      rw [hs] at hc hob
      obtain ⟨hss,e,he,hi,ht⟩ := hc
      obtain ⟨e',he',hsm⟩ := hob client (by simp [Server.holds]) e he
      obtain ⟨rfl,hk⟩ := hsm hi
      exact ⟨hss,e',he',hi,hk _ ht⟩
    | _ => trivial

theorem Core.advance (h : Core s (before ++ r :: after)) (hs : Served s r')
    (hss : r'.sess = r.sess) : Core s (before ++ r' :: after) := by
  have hm : (before ++ r' :: after).map Running.sess = (before ++ r :: after).map
    Running.sess := by simp [hss]
  refine { h with served := ?_,alone := hm ▸ h.alone,kept := ?_ }
  · intro x hx
    rcases mem_append.mp hx with hx | hx
    · exact h.served x (mem_append_left _ hx)
    · rcases mem_cons.mp hx with rfl | hx
      · exact hs
      · exact h.served x (mem_append_right _ (.tail _ hx))
  · rw [hm]
    exact h.kept

theorem Core.request (h : Core s (before ++ r :: after)) : Served s r := h.served r (by simp)

theorem Served.next {next : Answer q → Handler} (h : Served s r) (hp : r.prog = .ask q next)
    (hq : q ≠ .close)
    (ha : ∀ isOpen,Truthful (admin s r.source) isOpen q a) : Served s { r with prog := next a } := by
  obtain ⟨e,isOpen,ho,hb,hc,hop,hg⟩ := h
  rw [hp] at hg
  refine ⟨e,isOpen,ho,hb,hc,hop,?_⟩
  have hn := hg.next (ha isOpen)
  rwa [stays,if_neg hq] at hn

theorem Core.root (h : Core s reqs) (hs : Served s r)
    (hp : r.prog = .ask .isFromRoot f) (ho : s.objects r.sess = some e) :
    decide (e.port < SCIF_ADMIN_PORT_END) = admin s r.source := by
  obtain ⟨e',isOpen,ho',_,hcn,hop,hg⟩ := hs
  rw [ho] at ho'
  cases ho'
  rw [hp] at hg
  obtain ⟨c,hc⟩ := isSome_iff_exists.mp (hop (hg.ok.1 rfl))
  obtain ⟨how,hpr⟩ := h.own ho hc
  rw [admin,hpr,← hcn,how]

theorem receive_cases (h : receive s o limit choice = some (t,got)) :
    (t = s ∧ got = none ∧ ∀ c,s.connOf o = some c → (s.peer c).hung = true) ∨
      ∃ c p bytes,s.connOf o = some c ∧ t = s.setPeer c p ∧ got = some (bytes,c) ∧
        p.port = (s.peer c).port ∧ p.hung = (s.peer c).hung ∧ p.mistaken = (s.peer c).mistaken := by
  unfold receive at h
  split at h
  · rename_i hc
    cases h
    exact .inl ⟨rfl,rfl,by simp [hc]⟩
  · rename_i c hc
    split at h
    · rename_i hh
      cases h
      exact .inl ⟨rfl,rfl,by simpa [hc] using hh⟩
    · cases h
  · rename_i c k hc
    dsimp only at h
    split at h
    · cases h
      exact .inr ⟨c,_,_,hc,rfl,rfl,rfl,rfl,rfl⟩
    · cases h
  · cases h

theorem Core.received (h : Core s reqs) (hr : receive s o limit choice = some (t,got)) :
    Core t reqs := by
  rcases receive_cases hr with ⟨rfl,_,_⟩ | ⟨c,p,bytes,_,rfl,_,hp,hh,hm⟩
  · exact h
  · refine h.setPeer hp ?_
    intro hf
    rwa [hh,hm]

theorem received_frame (h : receive s o limit choice = some (t,got)) :
    Frame s t ∧ t.handlers = s.handlers ∧ t.objects = s.objects ∧ t.table = s.table ∧
    admin t = admin s := by
  rcases receive_cases h with ⟨rfl,_,_⟩ | ⟨c,p,bytes,_,rfl,_,hp,_,_⟩
  · exact ⟨.refl rfl rfl (fun _ _ h => h),rfl,rfl,rfl,rfl⟩
  · exact ⟨.refl rfl rfl (fun _ _ h => h),rfl,rfl,rfl,funext (setPeer_admin hp)⟩

theorem exchange_frame (s : State) (source : Nat) (conn : Option Nat) :
    Frame s (s.exchange source conn) ∧ (s.exchange source conn).handlers = s.handlers := by
  cases conn with
  | none | some c => exact ⟨.refl rfl rfl (fun _ _ h => h),rfl⟩

theorem served_exchange (h : Served s r) : Served (s.exchange source conn) r := by
  cases conn with
  | none | some c => exact h

theorem Core.shutdown_frame (h : Core s reqs) (ho : s.objects o = some e) (hb : e.inProgress = true)
    (hl : ∀ c,s.table e.ep = some c → s.faulty c = true) :
    Frame s (Systools.Daemon.shutdown s o) ∧ (Systools.Daemon.shutdown s o).handlers = s.handlers := by
  obtain ⟨log,_,heq⟩ := scifClose_eq h.fine hl
  unfold Systools.Daemon.shutdown
  rw [ho]
  dsimp only
  rw [heq]
  refine ⟨⟨rfl,?_⟩,rfl⟩
  intro p _ x hx
  by_cases hp : p = o
  · subst hp
    rw [ho] at hx
    cases hx
    exact ⟨_,update_self _ _ _,fun hi => absurd (hb.symm.trans hi) (by decide)⟩
  · refine ⟨x,(update_of_ne hp _ _).trans hx,fun _ => ⟨rfl,?_⟩⟩
    intro c hc
    have hep : x.ep ≠ e.ep := fun hep => hp (h.apart _ _ _ _ hx ho hep)
    exact (update_of_ne hep _ _).trans hc

theorem Core.perform_close (h : Core s (before ++ r :: after))
    (hpr : r.prog = .ask .close f) (hp : p.port = (s.peer r.source).port) (hm : p.mistaken = true) :
    Core (Systools.Daemon.shutdown (s.setPeer r.source p) r.sess)
      (before ++ { r with prog := f () } :: after) ∧
      Frame s (Systools.Daemon.shutdown (s.setPeer r.source p) r.sess) ∧
      (Systools.Daemon.shutdown (s.setPeer r.source p) r.sess).handlers = s.handlers := by
  obtain ⟨e,isOpen,ho,hbs,hcn,hop,hg⟩ := h.request
  rw [hpr] at hg
  have hn : Guarded (admin s r.source) false (f ()) := hg.next trivial
  have hs : Served s { r with prog := f () } := ⟨e,false,ho,hbs,hcn,nofun,hn⟩
  have hmr := h.advance hs rfl
  have hcr := hmr.setPeer hp (by simp [hm])
  have hfl : ∀ c,s.table e.ep = some c → (s.setPeer r.source p).faulty c = true := by
    intro c hc
    rw [← (h.own ho hc).1,hcn]
    simp [State.faulty,State.setPeer,hm]
  have hf := hcr.shutdown_frame ho hbs hfl
  refine ⟨hcr.shutdown ho hfl ?_,⟨hf.1.server,hf.1.objects⟩,hf.2⟩
  intro x hx hss
  have ha := hmr.alone
  rw [map_append,map_cons] at ha
  obtain ⟨_,haf,hb⟩ := nodup_append.mp ha
  rw [setPeer_admin hp]
  rcases mem_append.mp hx with hx | hx
  · exact absurd hss (hb _ (mem_map_of_mem hx) _ mem_cons_self)
  · rcases mem_cons.mp hx with rfl | hx
    · exact hn
    · exact absurd (hss ▸ mem_map_of_mem hx) (nodup_cons.mp haf).1

theorem Core.perform (h : Core s (before ++ r :: after)) (hp : perform s r choice = some (t,r')) :
    Core t (before ++ r' :: after) ∧ Frame s t ∧ t.handlers = s.handlers := by
  have hs := h.request
  have hsm : Frame s s := .refl rfl rfl (fun _ _ h => h)
  unfold Systools.Daemon.perform at hp
  split at hp
  · cases hp
  · rename_i next hpr
    cases hp
    exact ⟨h.advance (hs.next hpr (by simp) (fun _ => trivial)) rfl,hsm,rfl⟩
  · rename_i next hpr
    split at hp
    · cases hp
      exact ⟨h.advance (hs.next hpr (by simp) (fun _ => trivial)) rfl,hsm,rfl⟩
    · cases hp
      have hcr := h.advance (hs.next (a := true) hpr (by simp) (fun _ => trivial)) rfl
      exact ⟨{ hcr with },.refl rfl rfl (fun _ _ h => h),rfl⟩
  · rename_i next hpr
    cases hp
    have hcr := h.advance (hs.next (a := ()) hpr (by simp) (fun _ => trivial)) rfl
    exact ⟨{ hcr with },.refl rfl rfl (fun _ _ h => h),rfl⟩
  · rename_i next hpr
    obtain ⟨e,he,heq⟩ := map_eq_some_iff.mp hp
    cases heq
    exact ⟨h.advance (hs.next hpr (by simp) (fun _ => h.root hs hpr he)) rfl,hsm,rfl⟩
  · rename_i next hpr
    split at hp
    · cases hp
      exact ⟨h.advance (hs.next hpr (by simp) (fun _ => trivial)) rfl,hsm,rfl⟩
    · cases hp
  · rename_i next hpr
    split at hp
    · cases hp
      exact ⟨h.advance (hs.next hpr (by simp) (fun _ => trivial)) rfl,hsm,rfl⟩
    · cases hp
  · rename_i op next hpr
    split at hp
    · rename_i answer
      cases hp
      have hcr := h.advance (hs.next (a := answer) hpr (by simp) (fun _ => trivial)) rfl
      have ha : admin s r.source = true := by
        obtain ⟨_,isOpen,_,_,_,_,hg⟩ := hs
        rw [hpr] at hg
        exact hg.ok.2 op rfl
      split
      · have hpo : (s.peer r.source).port < SCIF_ADMIN_PORT_END := of_decide_eq_true ha
        have hfn : Fine (.effect op (s.peer r.source).port) := hpo
        exact ⟨hcr.noted hfn,.refl rfl rfl (fun _ _ h => h),rfl⟩
      · exact ⟨hcr,hsm,rfl⟩
    · cases hp
  · rename_i message next hpr
    cases hp
    obtain ⟨e,_,ho,_,hcn,_,_⟩ := hs
    have how : ∀ c,s.connOf r.sess = some c → c = r.source := fun c hc => (h.connOf ho hc).trans hcn
    have hf := exchange_frame s r.source (s.connOf r.sess)
    refine ⟨(h.exchange how).advance ?_ rfl,hf.1,hf.2⟩
    exact served_exchange (h.request.next hpr (by simp) (fun _ => trivial))
  · rename_i limit next hpr
    obtain ⟨⟨u,got⟩,hr,heq⟩ := map_eq_some_iff.mp hp
    cases heq
    have hcr := h.received hr
    obtain ⟨hf,hh,hob,ht,ha⟩ := received_frame hr
    obtain ⟨e,_,ho,_,hcn,_,_⟩ := hs
    have how : ∀ c,got.map (·.2) = some c → c = r.source := by
      rcases receive_cases hr with ⟨_,rfl,_⟩ | ⟨c,p,bytes,hc,_,rfl,_,_,_⟩
      · simp
      · intro c' hc'
        cases hc'
        exact (h.connOf ho hc).trans hcn
    have hf' := exchange_frame u r.source (got.map (·.2))
    refine ⟨(hcr.exchange how).advance ?_ rfl,?_,hf'.2.trans hh⟩
    · exact served_exchange (hcr.request.next hpr (by simp) (fun _ => trivial))
    refine .refl (hf'.1.server.trans hf.server) ?_ ?_
    · cases got.map (·.2) with
      | none | some c => exact hob
    · intro fd c hc
      cases got.map (·.2) with
      | none | some c => exact ht ▸ hc
  · rename_i next hpr
    cases hp
    exact h.perform_close hpr rfl rfl

theorem started_eq (ho : s.objects o = some e) : removeSession (s.setInProgress o true) o =
    { s.setObject o (some { e with inProgress := true }) with
      sessions := update s.sessions e.ep none } := by
  simp [removeSession,State.setInProgress,ho,State.setObject]

theorem finish_eq (ho : s.objects r.sess = some e) : finish s r =
    State.setObject { s with sessions := update s.sessions e.ep (some r.sess) } r.sess
      (some { e with inProgress := false }) := by
  simp [finish,addSession,State.setInProgress,ho,State.setObject]

section
variable (h : Core s reqs) (ho : s.objects o = some e)
include h ho

theorem Core.flagged (hrq : flag = true ∨ o ∉ reqs.map Running.sess) :
    Core (s.setObject o (some { e with inProgress := flag })) reqs := by
  obtain ⟨hnn,hap,hkn⟩ := h.changed (f := some { e with inProgress := flag }) ho (by simp)
  have hfr : ∀ p x,s.objects p = some x →
      ∃ x',update s.objects o (some { e with inProgress := flag }) p = some x' ∧
        x'.ep = x.ep ∧ x'.conn = x.conn ∧ x'.port = x.port ∧ (p ≠ o → x' = x) := by
    intro p x hx
    by_cases hp : p = o
    · subst hp
      rw [ho] at hx
      cases hx
      exact ⟨_,update_self _ _ _,rfl,rfl,rfl,fun hne => absurd rfl hne⟩
    · exact ⟨x,(update_of_ne hp _ _).trans hx,rfl,rfl,rfl,fun _ => rfl⟩
  refine ⟨hnn,hap,?_,hkn,h.waiting,?_,?_,?_,h.alone,?_,h.fine⟩
  · intro fd c hc
    obtain ⟨p,x,hx,hep,hcn,hpr⟩ := h.owned fd c hc
    obtain ⟨x',hx',he',hc',hp',_⟩ := hfr p x hx
    exact ⟨p,x',hx',he'.trans hep,hc'.trans hcn,hp'.trans hpr⟩
  · intro fd p hs
    obtain ⟨x,hx,hep⟩ := h.keyed fd p hs
    obtain ⟨x',hx',he',_⟩ := hfr p x hx
    exact ⟨x',hx',he'.trans hep⟩
  · intro p hp
    obtain ⟨x,hx⟩ := isSome_iff_exists.mp (h.new p hp)
    obtain ⟨x',hx',_⟩ := hfr p x hx
    exact isSome_iff_exists.mpr ⟨x',hx'⟩
  · intro r hr
    obtain ⟨x,isOpen,hx,hbs,hcn,hop,hg⟩ := h.served r hr
    obtain ⟨x',hx',he',hc',_,hsm⟩ := hfr r.sess x hx
    refine ⟨x',isOpen,hx',?_,hc'.trans hcn,fun hi => he' ▸ hop hi,hg⟩
    by_cases hp : r.sess = o
    · rcases hrq with rfl | hno
      · rw [hp] at hx'
        cases (update_self o (some { e with inProgress := true }) s.objects).symm.trans hx'
        rfl
      · exact absurd (hp ▸ mem_map_of_mem hr) hno
    · rw [hsm hp]
      exact hbs
  · intro fd c hc hf
    obtain ⟨p,x,hx,hep,hw⟩ := h.kept fd c hc hf
    obtain ⟨x',hx',he',_⟩ := hfr p x hx
    exact ⟨p,x',hx',he'.trans hep,hw⟩

theorem Core.idle (hi : e.inProgress = false) : o ∉ reqs.map Running.sess := by
  intro hm
  obtain ⟨r,hr,hs⟩ := mem_map.mp hm
  obtain ⟨x,_,hx,hb,_⟩ := h.served r hr
  rw [hs,ho] at hx
  cases hx
  rw [hi] at hb
  cases hb

theorem Core.started (hi : e.inProgress = false) (ht : s.table e.ep = some source)
    (req : SystoolsdReq) :
    Core (removeSession (s.setInProgress o true) o) (⟨o,createRequest req,source⟩ :: reqs) := by
  have hn := h.idle ho hi
  have hfl : Core (s.setObject o (some { e with inProgress := true })) reqs := h.flagged ho (.inl rfl)
  have hob : (s.setObject o (some { e with inProgress := true })).objects o =
    some { e with inProgress := true } :=
    update_self _ _ _
  rw [started_eq ho]
  refine { hfl with keyed := ?_,served := ?_,alone := nodup_cons.mpr ⟨hn,hfl.alone⟩,kept := ?_ }
  · intro fd p (hs : update s.sessions e.ep none fd = some p)
    rw [update_apply] at hs
    split at hs
    · cases hs
    · exact hfl.keyed fd p hs
  · refine forall_mem_cons.mpr ⟨?_,hfl.served⟩
    exact ⟨_,true,hob,rfl,(h.own ho ht).1,fun _ => isSome_iff_exists.mpr ⟨_,ht⟩,guarded_createRequest⟩
  · intro fd c hc hf
    obtain ⟨p,x,hx,hep,hw⟩ := hfl.kept fd c hc hf
    refine ⟨p,x,hx,hep,?_⟩
    by_cases hp : p = o
    · exact .inr (.inl (by simp [hp]))
    have hfd : fd ≠ e.ep := fun hfd => hp (hfl.apart p o x _ hx hob (hep.trans hfd))
    rcases hw with hs | hr | ha
    · exact .inl ((update_of_ne hfd _ _).trans hs)
    · exact .inr (.inl (.tail _ hr))
    · exact .inr (.inr ha)

end

theorem Core.finished (h : Core s (before ++ r :: after)) : Core (finish s r) (before ++ after) := by
  obtain ⟨e,_,ho,_⟩ := h.request
  have hal := h.alone
  rw [map_append,map_cons] at hal
  obtain ⟨_,haf,hb⟩ := nodup_append.mp hal
  have hg : r.sess ∉ (before ++ after).map Running.sess := by
    rw [map_append]
    intro hm
    rcases mem_append.mp hm with hm | hm
    · exact hb _ hm _ mem_cons_self rfl
    · exact (nodup_cons.mp haf).1 hm
  have hin := h.entered ho
  have hd : Core { s with sessions := update s.sessions e.ep (some r.sess) } (before ++ after) := by
    refine { hin with served := ?_,alone := ?_,kept := ?_ }
    · intro x hx
      refine hin.served x ?_
      rcases mem_append.mp hx with hx | hx
      · exact mem_append_left _ hx
      · exact mem_append_right _ (.tail _ hx)
    · exact hin.alone.sublist ((sublist_cons_self r after).append_left before |>.map _)
    · intro fd c hc hf
      obtain ⟨p,x,hx,hep,hw⟩ := hin.kept fd c hc hf
      refine ⟨p,x,hx,hep,?_⟩
      rcases hw with hs | hr | ha
      · exact .inl hs
      · by_cases hp : p = r.sess
        · subst hp
          rw [ho] at hx
          cases hx
          exact .inl (by simp [hep])
        · right
          left
          simpa [hp] using hr
      · exact .inr (.inr ha)
  rw [finish_eq ho]
  exact hd.flagged ho (.inr hg)

end Mpss.Proofs.SessionsApart
