import Mpss.Proofs.SessionsApart

namespace Mpss.Proofs.ClientsApart
open Library.Runs Systools.Requests Systools.Daemon HandlersGuarded SessionsApart List Bool Function
open Option hiding choice

variable {s t : State}

def making : Server → List Running
  | .constructing _ _ h => [h]
  | _ => []

def requests (s : State) : List Running := making s.server ++ s.handlers

structure Inv (s : State) : Prop where
  core : Core s (requests s)
  phase : Phase s

/-- SCIF hands out no number that an endpoint object still has, and a session is still in the map
when it is looked up. -/
def Allowed (s : State) : Label → Prop
  | .accept fd => (List.range s.made).all (fun o => (s.objects o).all (fun e => e.ep != fd)) = true
  | .serve _ =>
    match s.server with
    | .visiting _ (client :: _) => (s.objects client).all (fun e => (s.sessions e.ep).isSome) = true
    | _ => True
  | _ => True

theorem Core.connected (h : Core s reqs) :
    Core { s.setPeer s.conns ⟨port,[],false,false⟩ with
      conns := s.conns + 1,pending := s.pending ++ [s.conns] } reqs := by
  have hp : ∀ c,c < s.conns → update s.peer s.conns ⟨port,[],false,false⟩ c = s.peer c :=
    fun c hc => update_of_ne (ne_of_lt hc) _ _
  have hk : ∀ fd c,s.table fd = some c → c < s.conns := by
    intro fd c hc
    obtain ⟨o,e,ho,_,hcn,_⟩ := h.owned fd c hc
    exact hcn ▸ h.known o e ho
  refine ⟨h.fresh,h.apart,?_,?_,?_,h.keyed,h.new,?_,h.alone,?_,h.fine⟩
  · intro fd c hc
    obtain ⟨o,e,ho,hep,hcn,hpr⟩ := h.owned fd c hc
    refine ⟨o,e,ho,hep,hcn,?_⟩
    show e.port = (update s.peer s.conns ⟨port,[],false,false⟩ c).port
    rw [hp c (hk fd c hc),hpr]
  · intro o e ho
    exact Nat.lt_succ_of_lt (h.known o e ho)
  · intro c hc
    rcases mem_append.mp hc with hc | hc
    · exact Nat.lt_succ_of_lt (h.waiting c hc)
    · rw [mem_singleton.mp hc]
      exact Nat.lt_succ_self _
  · intro r hr
    obtain ⟨e,isOpen,ho,hb,hcn,hop,hg⟩ := h.served r hr
    refine ⟨e,isOpen,ho,hb,hcn,hop,?_⟩
    have hs : r.source < s.conns := hcn ▸ h.known _ e ho
    show Guarded (decide ((update s.peer s.conns ⟨port,[],false,false⟩ r.source).port <
      SCIF_ADMIN_PORT_END)) isOpen r.prog
    rw [hp _ hs]
    exact hg
  · intro fd c hc hf
    refine h.kept fd c hc ?_
    have hsm := hp c (hk fd c hc)
    simp only [State.faulty,State.setPeer] at hf ⊢
    rw [hsm] at hf
    exact hf

theorem Core.acceptedAs (h : Core s reqs) (hl : s.acceptor = .listening)
    (hfd : ∀ o e,s.objects o = some e → e.ep ≠ fd)
    (hc : conn < s.conns) (hpn : ∀ c ∈ pending,c < s.conns) :
    Core { s.setObject s.made (some ⟨fd,(s.peer conn).port,false,conn⟩) with
      pending := pending
      table := Function.update s.table fd (some conn)
      made := s.made + 1
      acceptor := .accepted s.made } reqs := by
  have hol : ∀ p x,s.objects p = some x → update s.objects s.made
      (some ⟨fd,(s.peer conn).port,false,conn⟩) p = some x := by
    intro p x hx
    have hp : p ≠ s.made := by
      rintro rfl
      rw [h.fresh _ le_rfl] at hx
      cases hx
    exact (update_of_ne hp _ _).trans hx
  have hcs : ∀ p x,update s.objects s.made (some ⟨fd,(s.peer conn).port,false,conn⟩) p = some x →
      (p = s.made ∧ x = ⟨fd,(s.peer conn).port,false,conn⟩) ∨ s.objects p = some x := by
    intro p x hx
    rw [update_apply] at hx
    split_ifs at hx with hp
    · cases hx
      exact .inl ⟨hp,rfl⟩
    · exact .inr hx
  refine ⟨?_,?_,?_,?_,hpn,?_,?_,?_,h.alone,?_,h.fine⟩
  · intro p (hp : s.made + 1 ≤ p)
    exact (update_of_ne (by omega) _ _).trans (h.fresh p (by omega))
  · intro p q x y hx hy hep
    rcases hcs p x hx with ⟨rfl,rfl⟩ | hx
    · rcases hcs q y hy with ⟨rfl,rfl⟩ | hy
      · rfl
      · exact absurd hep.symm (hfd q y hy)
    · rcases hcs q y hy with ⟨rfl,rfl⟩ | hy
      · exact absurd hep (hfd p x hx)
      · exact h.apart p q x y hx hy hep
  · intro fd' c (hc' : update s.table fd (some conn) fd' = some c)
    rw [update_apply] at hc'
    split_ifs at hc' with he
    · cases hc'
      exact ⟨s.made,_,update_self _ _ _,he.symm,rfl,rfl⟩
    · obtain ⟨o,e,ho,hrs⟩ := h.owned fd' c hc'
      exact ⟨o,e,hol o e ho,hrs⟩
  · intro p x hx
    rcases hcs p x hx with ⟨_,rfl⟩ | hx
    · exact hc
    · exact h.known p x hx
  · intro fd' p hs
    obtain ⟨x,hx,hep⟩ := h.keyed fd' p hs
    exact ⟨x,hol p x hx,hep⟩
  · intro p hp
    rw [mem_singleton.mp hp]
    exact isSome_iff_exists.mpr ⟨_,update_self _ _ _⟩
  · intro r hr
    obtain ⟨x,isOpen,hx,hb,hcn,hop,hg⟩ := h.served r hr
    refine ⟨x,isOpen,hol _ x hx,hb,hcn,?_,hg⟩
    intro hi
    show (update s.table fd (some conn) x.ep).isSome = true
    rw [update_of_ne (hfd _ x hx)]
    exact hop hi
  · intro fd' c (hc' : update s.table fd (some conn) fd' = some c) hf
    rw [update_apply] at hc'
    split_ifs at hc' with he
    · exact ⟨s.made,_,update_self _ _ _,he.symm,.inr (.inr rfl)⟩
    obtain ⟨o,x,ho,hep,hw⟩ := h.kept fd' c hc' hf
    refine ⟨o,x,hol o x ho,hep,?_⟩
    rw [hl] at hw
    rcases hw with hs | hr | ha
    · exact .inl hs
    · exact .inr (.inl hr)
    · cases ha

theorem Inv.framed (h : Inv s) (hf : Frame s t) (hc : Core t (requests s))
    (hh : t.handlers = s.handlers) : Inv t := by
  refine ⟨?_,h.phase.frame hf⟩
  unfold requests at hc ⊢
  rwa [hf.server,hh]

theorem Inv.acceptStep (h : Inv s) (hs : acceptStep s fd = some t) (ha : Allowed s (.accept fd)) :
    Inv t := by
  unfold Systools.Daemon.acceptStep at hs
  split at hs
  · rename_i conn pending hl hp
    obtain ⟨hf,hs⟩ := ite_none_right_eq_some.mp hs
    cases hs
    have hw := h.core.waiting
    rw [hp] at hw
    have hfd : ∀ o e,s.objects o = some e → e.ep ≠ fd := by
      intro o e ho
      have hm : o < s.made := by
        by_contra hno
        rw [h.core.fresh o (Nat.le_of_not_lt hno)] at ho
        cases ho
      have hal := all_eq_true.mp ha o (mem_range.mpr hm)
      rw [ho] at hal
      exact bne_iff_ne.mp hal
    refine h.framed ⟨rfl,?_⟩ (Core.acceptedAs h.core hl hfd (hw conn mem_cons_self)
      (forall_mem_cons.mp hw).2) rfl
    intro o _ e he
    have ho : o ≠ s.made := by
      intro heq
      rw [heq,h.core.fresh _ le_rfl] at he
      cases he
    refine ⟨e,(update_of_ne ho _ _).trans he,fun _ => ⟨rfl,?_⟩⟩
    intro c hc
    exact (update_of_ne (hfd o e he) _ _).trans hc
  · cases hs

section
variable (h : Core s reqs)
include h

theorem Core.setAcceptor (hn : ∀ o ∈ a.holds,(s.objects o).isSome = true)
    (hin : ∀ o e,s.acceptor = .accepted o → s.objects o = some e → s.sessions e.ep = some o) :
    Core { s with acceptor := a } reqs := by
  refine { h with new := hn,kept := ?_ }
  intro fd c hc hf
  obtain ⟨o,e,ho,hep,hw⟩ := h.kept fd c hc hf
  refine ⟨o,e,ho,hep,?_⟩
  rcases hw with hs | hr | ha
  · exact .inl hs
  · exact .inr (.inl hr)
  · exact .inl (hep ▸ hin o e ha ho)

theorem Core.moved (hp : reqs'.Perm reqs) (handlers : List Running) :
    Core { s with server := server,handlers := handlers } reqs' := by
  have hm := hp.map Running.sess
  refine { h with served := ?_,alone := hm.nodup_iff.mpr h.alone,kept := ?_ }
  · intro r hr
    exact h.served r (hp.mem_iff.mp hr)
  · intro fd c hc hf
    obtain ⟨o,e,ho,hep,hw⟩ := h.kept fd c hc hf
    exact ⟨o,e,ho,hep,hw.imp_right (Or.imp_left hm.mem_iff.mpr)⟩

theorem Core.sweep :
    ∃ sessions,removeInvalid s works = { s with sessions := sessions } ∧
    Core { s with sessions := sessions } reqs := by
  have hc := h.removeInvalid works
  unfold removeInvalid at hc ⊢
  split_ifs at hc with hw
  · rw [if_pos hw]
    exact ⟨_,rfl,hc⟩
  · rw [if_neg hw]
    exact ⟨s.sessions,rfl,h⟩

theorem Core.sweepAt (hb : s.invalid fd = true) :
    ∃ sessions,removeInvalidAt s fd = { s with sessions := sessions } ∧
    Core { s with sessions := sessions } reqs := by
  have hc := h.removeInvalidAt hb
  unfold removeInvalidAt at hc ⊢
  split_ifs at hc with hz
  · rw [if_pos hz]
    exact Core.sweep h
  · rw [if_neg hz]
    exact ⟨_,rfl,hc⟩

theorem finish_frame (hr : r ∈ reqs) : Frame s (finish s r) ∧ (finish s r).handlers = s.handlers := by
  obtain ⟨e,_,ho,hb,_⟩ := h.served r hr
  rw [finish_eq ho]
  refine ⟨⟨rfl,?_⟩,rfl⟩
  intro p _ x hx
  by_cases hp : p = r.sess
  · rw [hp,ho] at hx
    cases hx
    refine ⟨{ e with inProgress := false },?_,fun hi => absurd (hb.symm.trans hi) (by simp)⟩
    rw [hp]
    exact update_self _ _ _
  · exact ⟨x,(update_of_ne hp _ _).trans hx,fun _ => ⟨rfl,fun _ hc => hc⟩⟩

end

theorem requests_split (hi : s.handlers[i]? = some r) :
    requests s = (making s.server ++ s.handlers.take i) ++ r :: s.handlers.drop (i + 1) := by
  obtain ⟨hlt,hg⟩ := List.getElem?_eq_some_iff.mp hi
  have hd : s.handlers.drop i = r :: s.handlers.drop (i + 1) := by rw [drop_eq_getElem_cons hlt,hg]
  calc requests s = making s.server ++ (s.handlers.take i ++ s.handlers.drop i) := by
        rw [take_append_drop]
        rfl
    _ = _ := by rw [hd,append_assoc]

theorem peers_held (ho : o ∈ s.peers) : (s.objects o).isSome = true := by
  obtain ⟨_,ha⟩ := mem_filter.mp ho
  cases hx : s.objects o with
  | none =>
    rw [hx] at ha
    cases ha
  | some e => rfl

theorem requests_of (hs : s.server = server) (hm : making server = []) : requests s = s.handlers := by
  rw [requests,hs,hm]
  rfl

theorem Inv.resume (hc : Core s reqs) (hr : reqs = s.handlers) (hm : making server = [])
    (hcr : Current { s with server := server } server)
    (hh : ∀ o ∈ server.holds,(s.objects o).isSome = true) :
    Inv { s with server := server } := by
  refine ⟨?_,hh,hcr⟩
  have hp : (requests { s with server := server }).Perm reqs := by
    show (making server ++ s.handlers).Perm reqs
    rw [hm,hr]
    rfl
  exact Core.moved hc hp s.handlers

section
variable (h : Inv s)
include h

theorem Inv.listenStep (hs : listenStep s choice = some t) : Inv t := by
  unfold Systools.Daemon.listenStep at hs
  split at hs
  · rename_i o ha
    cases hs
    obtain ⟨e,ho⟩ := isSome_iff_exists.mp (h.core.new o (by simp [ha,Acceptor.holds]))
    have he := h.core.entered ho
    simp only [addSession,ho]
    refine h.framed (.refl rfl rfl (fun _ _ h => h)) (Core.setAcceptor he ?_ ?_) rfl
    · intro p hp
      rw [mem_singleton.mp hp]
      exact isSome_iff_exists.mpr ⟨e,ho⟩
    intro p x (hp : s.acceptor = .accepted p) (hx : s.objects p = some x)
    rw [ha] at hp
    cases hp
    rw [ho] at hx
    cases hx
    exact update_self _ _ _
  · rename_i o works had
    cases hs
    obtain ⟨sessions,heq,hc⟩ := Core.sweep h.core
    rw [heq]
    refine h.framed (.refl rfl rfl (fun _ _ h => h)) (Core.setAcceptor hc ?_ ?_) rfl
    · intro p hp
      cases hp
    · intro p x (hp : s.acceptor = .accepted p)
      rw [had] at hp
      cases hp
  · cases hs

theorem Inv.workStep (hs : workStep s i choice = some t) : Inv t := by
  unfold Systools.Daemon.workStep at hs
  split at hs
  · cases hs
  rename_i r hi
  have hc := h.core
  rw [requests_split hi] at hc
  have hlt := (List.getElem?_eq_some_iff.mp hi).1
  split at hs
  · cases hs
    obtain ⟨hf,_⟩ := finish_frame hc (r := r) (by simp)
    refine ⟨?_,h.phase.frame ⟨hf.server,hf.objects⟩⟩
    refine Core.moved hc.finished ?_ (s.handlers.eraseIdx i)
    show (making (finish s r).server ++ s.handlers.eraseIdx i).Perm _
    rw [hf.server,eraseIdx_eq_take_drop_succ,append_assoc]
  obtain ⟨⟨u,r'⟩,hp,heq⟩ := map_eq_some_iff.mp hs
  cases heq
  obtain ⟨hn,hf,_⟩ := hc.perform hp
  refine ⟨?_,h.phase.frame ⟨hf.server,hf.objects⟩⟩
  refine Core.moved hn ?_ (s.handlers.set i r')
  show (making u.server ++ s.handlers.set i r').Perm _
  rw [hf.server,set_eq_take_append_cons_drop,if_pos hlt,append_assoc]

theorem Inv.destroyStep (hst : destroyStep s o = some t) : Inv t := by
  unfold Systools.Daemon.destroyStep at hst
  split at hst
  · cases hst
  rename_i e ho
  obtain ⟨hfr,hst⟩ := ite_none_right_eq_some.mp hst
  cases hst
  simp only [State.unreferenced,and_eq_true,bne_iff_ne,not_eq_true',contains_eq_mem,
    decide_eq_false_iff_not] at hfr
  obtain ⟨⟨⟨hss,hac⟩,hsr⟩,hh⟩ := hfr
  have hrq : o ∉ (requests s).map Running.sess := by
    intro hm
    rw [requests,map_append] at hm
    rcases mem_append.mp hm with hm | hm
    · apply hsr
      cases hs : s.server with
      | constructing ready rest r =>
        rw [hs] at hm
        simp only [making,map_cons,map_nil,mem_singleton] at hm
        simp [Server.holds,hm]
      | _ =>
        rw [hs] at hm
        cases hm
    · exact hh hm
  have hf : ∀ c,s.table e.ep = some c → s.faulty c = true := by
    intro c hc
    by_contra hno
    obtain ⟨p,x,hp,hep,hw⟩ := h.core.kept e.ep c hc (eq_false_iff.mpr hno)
    have hpo := h.core.apart p o x e hp ho hep
    rw [hpo] at hw
    rcases hw with hs | hr | ha
    · exact hss hs
    · exact hrq hr
    · apply hac
      simp [ha,Acceptor.holds]
  have hcr : Core ((scifClose s e.ep).setObject o none) (requests s) :=
    h.core.released ho hf (fun _ hno => absurd hno (by simp)) (fun _ => ⟨hss,hac,hrq⟩)
      (fun r hr hse => absurd (hse ▸ mem_map_of_mem hr) hrq)
  obtain ⟨log,_,heq⟩ := scifClose_eq h.core.fine hf
  rw [heq] at hcr ⊢
  refine h.framed ⟨rfl,?_⟩ hcr rfl
  intro p hp x hx
  have hpo : p ≠ o := fun hpo => hsr (hpo ▸ hp)
  refine ⟨x,(update_of_ne hpo _ _).trans hx,fun _ => ⟨rfl,?_⟩⟩
  intro c hc
  have hep : x.ep ≠ e.ep := fun hep => hpo (h.core.apart _ _ _ _ hx ho hep)
  exact (update_of_ne hep _ _).trans hc

theorem Inv.served_by (hs : s.server = server) :
    (∀ o ∈ server.holds,(s.objects o).isSome = true) ∧ Current s server :=
  hs ▸ ⟨h.phase.held,h.phase.current⟩

theorem Inv.swept (hr : requests s = s.handlers) (hm : making server = [])
    (hc : ∀ t,Current t server) (hh : ∀ o ∈ server.holds,o ∈ s.server.holds) :
    Inv { removeInvalid s works with server := server } := by
  obtain ⟨sessions,heq,hcr⟩ := Core.sweep h.core
  rw [heq]
  exact Inv.resume hcr hr hm (hc _) (fun o ho => h.phase.held o (hh o ho))

theorem Inv.visit (hs : s.server = .visiting ready (client :: rest))
    (ho : s.objects client = some e) (hss : s.sessions e.ep = some sess) :
    Inv (if (s.objects sess).any (·.inProgress) then { s with server := .visiting ready rest }
      else { s with server := .receiving ready rest client sess }) := by
  have hr := requests_of hs rfl
  obtain ⟨hh,_⟩ := h.served_by hs
  obtain ⟨e',he',hep⟩ := h.core.keyed e.ep sess hss
  have hsm := h.core.apart sess client e' e he' ho hep
  split_ifs with hi
  · exact Inv.resume h.core hr rfl trivial hh
  rw [hsm,ho] at hi
  refine Inv.resume h.core hr rfl ⟨hsm,e,ho,by simpa using hi⟩ ?_
  intro o hm
  rcases mem_cons.mp hm with hm | hm
  · rw [hm,ho]
    rfl
  · rcases mem_cons.mp hm with hm | hm
    · rw [hm,he']
      rfl
    · exact hh o hm

theorem Inv.receive (hs : s.server = .receiving ready rest client sess)
    (ho : s.objects client = some e) (hr : receive s client limit choice = some (t,got)) :
    Inv (match (t,got) with
      | (t,none) => { removeInvalidAt t e.ep with server := .visiting ready rest }
      | (t,some (received,source)) =>
        { t with server := .flushing ready rest client sess received source }) := by
  have hrq := requests_of hs rfl
  obtain ⟨hh,hcr⟩ := h.served_by hs
  obtain ⟨hsm,x,hx,hi⟩ := hcr
  rw [ho] at hx
  cases hx
  have hco := h.core.received hr
  rcases receive_cases hr with ⟨rfl,rfl,hhn⟩ | ⟨c,p,bytes,hc,rfl,rfl,_,_,_⟩
  · have hb : t.invalid e.ep = true := by
      unfold State.invalid
      cases ht : t.table e.ep with
      | none => rfl
      | some c => exact hhn c (by simp [State.connOf,ho,ht])
    obtain ⟨sessions,heq,hsw⟩ := Core.sweepAt h.core hb
    dsimp only
    rw [heq]
    refine Inv.resume hsw hrq rfl trivial ?_
    intro o hm
    exact hh o (.tail _ (.tail _ hm))
  · have ht : s.table e.ep = some c := by simpa [State.connOf,ho] using hc
    exact Inv.resume hco hrq rfl ⟨hsm,e,ho,hi,ht⟩ hh

theorem Inv.overrun (hs : s.server = .flushing ready rest client sess received source)
    (hcn : s.connOf client = some c) (hp : p.port = (s.peer c).port) (hms : p.mistaken = true) :
    Inv { shutdown (s.setPeer c p) client with server := .visiting ready rest } := by
  have hrq := requests_of hs rfl
  obtain ⟨hh,hcr⟩ := h.served_by hs
  obtain ⟨_,e,ho,hi,ht⟩ := hcr
  have hc : s.table e.ep = some c := by simpa [State.connOf,ho] using hcn
  have hmr := h.core.setPeer hp (by simp [hms])
  have hf : ∀ c',s.table e.ep = some c' → (s.setPeer c p).faulty c' = true := by
    intro c' hc'
    rw [hc] at hc'
    cases hc'
    simp [State.faulty,State.setPeer,hms]
  have hn := h.core.idle ho hi
  have hco := hmr.shutdown ho hf (fun r hr hss => absurd (hss ▸ mem_map_of_mem hr) hn)
  obtain ⟨log,_,heq⟩ := scifClose_eq hmr.fine hf
  have hst : shutdown (s.setPeer c p) client = State.setObject
      { s.setPeer c p with table := update s.table e.ep none,log := log } client
      (some { e with port := 0 }) := by
    have ho' : (s.setPeer c p).objects client = some e := ho
    unfold shutdown
    rw [ho']
    exact congrArg (State.setObject · client (some { e with port := 0 })) heq
  rw [hst] at hco ⊢
  refine Inv.resume hco hrq rfl trivial ?_
  intro o hm
  show (update s.objects client (some { e with port := 0 }) o).isSome = true
  rw [update_apply]
  split
  · rfl
  · exact hh o (.tail _ (.tail _ hm))

section
variable (hs : s.server = .dispatching ready rest client sess received source)
include hs

theorem Inv.dispatch (req : SystoolsdReq) :
    Inv { removeSession (s.setInProgress sess true) sess with
      server := .constructing ready rest ⟨sess,createRequest req,source⟩ } := by
  have hr := requests_of hs rfl
  obtain ⟨hh,hc⟩ := h.served_by hs
  obtain ⟨hsm,e,ho,hi,ht⟩ := hc
  rw [← hsm] at ho
  have hcr := h.core.started ho hi ht req
  rw [hr] at hcr
  rw [started_eq ho] at hcr ⊢
  refine ⟨Core.moved hcr (.refl _) s.handlers,?_,trivial⟩
  intro o hm
  show (update s.objects sess (some { e with inProgress := true }) o).isSome = true
  rw [update_apply]
  split_ifs with hne
  · rfl
  · rcases mem_cons.mp hm with hm | hm
    · exact absurd hm hne
    · exact hh o (.tail _ (.tail _ hm))

theorem Inv.notify :
    Inv { s.exchange source (s.connOf client) with server := .notified ready rest client } := by
  have hr := requests_of hs rfl
  obtain ⟨hh,hcr⟩ := h.served_by hs
  obtain ⟨_,e,ho,_,ht⟩ := hcr
  have hcn : s.connOf client = some source := by simp [State.connOf,ho,ht]
  rw [hcn]
  have hco : Core (s.exchange source (some source)) (requests s) :=
    h.core.exchange (fun c hc => (Option.some.inj hc).symm)
  refine Inv.resume hco hr rfl trivial ?_
  intro o hm
  rcases mem_cons.mp hm with hm | hm
  · exact hh o (hm ▸ mem_cons_self)
  · exact hh o (.tail _ (.tail _ hm))

end

theorem Inv.enqueue (hs : s.server = .constructing ready rest r)
    (hp : r.prog = .ask .queued k) :
    Inv { s with
      handlers := s.handlers ++ [{ r with prog := k () }],server := .visiting ready rest } := by
  have hc := h.core
  have hh := h.phase.held
  rw [requests,hs] at hc
  rw [hs] at hh
  have hsr : Served s r := hc.served r mem_cons_self
  have hn : Served s { r with prog := k () } := hsr.next hp (by simp) (fun _ => trivial)
  have ha : Core s ([] ++ { r with prog := k () } :: s.handlers) := Core.advance hc hn rfl
  refine ⟨Core.moved ha ?_ _,?_,trivial⟩
  · exact perm_append_singleton _ _
  · intro o hm
    exact hh o (.tail _ hm)

theorem Inv.construct (hs : s.server = .constructing ready rest r)
    (hp : perform s r choice = some (t,r')) :
    Inv { t with server := .constructing ready rest r' } := by
  have hc : Core s ([] ++ r :: s.handlers) := by
    have hc := h.core
    rw [requests,hs] at hc
    exact hc
  have hhl := h.phase.held
  obtain ⟨hn,hf,hh⟩ := hc.perform hp
  refine ⟨Core.moved hn ?_ t.handlers,?_,trivial⟩
  · rw [hh]
    rfl
  intro o hm
  rcases mem_cons.mp hm with hm | hm
  · obtain ⟨e,_,he,_⟩ := hn.served r' mem_cons_self
    rw [hm,he]
    rfl
  have hmm : o ∈ s.server.holds := by
    rw [hs]
    exact .tail _ hm
  obtain ⟨e,he⟩ := isSome_iff_exists.mp (hhl o hmm)
  obtain ⟨e',he',_⟩ := hf.objects o hmm e he
  exact isSome_iff_exists.mpr ⟨e',he'⟩

theorem Inv.serveStep (hst : serveStep s choice = some t) (ha : Allowed s (.serve choice)) :
    Inv t := by
  unfold Systools.Daemon.serveStep at hst
  split at hst
  · rename_i works hs
    cases hst
    have hrq := requests_of hs rfl
    exact h.swept hrq rfl (fun _ => trivial) (fun o ho => absurd ho (by simp [Server.holds]))
  · rename_i hs
    have hrq := requests_of hs rfl
    split at hst
    · cases hst
      exact Inv.resume h.core hrq rfl trivial (fun o ho => absurd ho (by simp [Server.holds]))
    · cases hst
      exact Inv.resume h.core hrq rfl trivial (fun o ho => peers_held ho)
  · rename_i peers hs
    cases hst
    have hrq := requests_of hs rfl
    have hh := h.phase.held
    rw [hs] at hh
    exact Inv.resume h.core hrq rfl trivial (fun o ho => hh o (mem_filter.mp ho).1)
  · rename_i ready hs
    cases hst
    have hrq := requests_of hs rfl
    exact Inv.resume h.core hrq rfl trivial (fun o ho => absurd ho (by simp [Server.holds]))
  · rename_i ready client rest hs
    obtain ⟨e,ho,heq⟩ := map_eq_some_iff.mp hst
    simp only [Allowed,hs,ho,all_some] at ha
    obtain ⟨sess,hss⟩ := isSome_iff_exists.mp ha
    rw [hss] at heq
    cases heq
    exact h.visit hs ho hss
  · rename_i ready rest client sess hs
    obtain ⟨e,ho,hm⟩ := bind_eq_some_iff.mp hst
    obtain ⟨⟨u,got⟩,hr,heq⟩ := map_eq_some_iff.mp hm
    have hn := h.receive hs ho hr
    cases got with
    | none | some got =>
      cases heq
      exact hn
  · rename_i ready rest client sess received source hs
    have hrq := requests_of hs rfl
    have hph := h.phase
    obtain ⟨hh,hc⟩ := hph
    rw [hs] at hh hc
    split at hst
    · rename_i conn hcn
      dsimp only at hst
      split at hst
      · cases hst
        exact Inv.resume h.core hrq rfl hc hh
      · cases hst
        exact h.overrun hs hcn rfl rfl
    · cases hst
      exact Inv.resume h.core hrq rfl hc hh
  · rename_i ready rest client sess received source hs
    split at hst
    · dsimp only at hst
      split at hst
      · cases hst
      · cases hst
        exact h.dispatch hs _
    · cases hst
      exact h.notify hs
  · rename_i ready rest client works hs
    cases hst
    have hrq := requests_of hs rfl
    refine h.swept hrq rfl (fun _ => trivial) ?_
    intro o ho
    rw [hs]
    exact .tail _ ho
  · rename_i ready rest r hs
    split at hst
    · rename_i next hpr
      cases hst
      exact h.enqueue hs hpr
    · obtain ⟨⟨u,r'⟩,hp,heq⟩ := map_eq_some_iff.mp hst
      cases heq
      exact h.construct hs hp
  · cases hst

theorem Inv.clientStep (hst : clientStep s label = some t) : Inv t := by
  have hs : ∀ c p,p.port = (s.peer c).port → (s.faulty c = true → (p.hung || p.mistaken) = true) →
      Inv (s.setPeer c p) := fun c p hp hf =>
    h.framed (.refl rfl rfl (fun _ _ h => h)) (h.core.setPeer hp hf) rfl
  unfold Systools.Daemon.clientStep at hst
  split at hst
  · cases hst
    exact h.framed (.refl rfl rfl (fun _ _ h => h)) (Core.connected h.core) rfl
  · exact of_guard hst (fun _ => hs _ _ rfl id)
  · exact of_guard hst (fun _ => hs _ _ rfl (fun _ => rfl))
  · cases hst

theorem Inv.step (hs : step s label = some t) (ha : Allowed s label) : Inv t := by
  obtain ⟨_,hs⟩ := ite_none_left_eq_some.mp hs
  split at hs
  · exact h.acceptStep hs ha
  · exact h.listenStep hs
  · exact h.serveStep hs ha
  · exact h.workStep hs
  · exact h.destroyStep hs
  · exact h.clientStep hs

end

theorem Inv.init : Inv init := by
  refine ⟨⟨fun _ _ => rfl,?_,?_,?_,?_,?_,?_,?_,nodup_nil,?_,?_⟩,?_,trivial⟩ <;>
    simp [Systools.Daemon.init,requests,making,Acceptor.holds,Server.holds]

/-- In allowed runs every effect was asked for by an administrator, and requests are spoken about
and connections closed for their own peers alone. -/
theorem sessions_apart {labels : List Label} (hexec : exec step init labels = some t)
    (hallow : Along step Allowed init labels) : ∀ ev ∈ t.log,Fine ev :=
  (exec_invariant (fun _ _ _ h ha hs => Inv.step h hs ha) Inv.init hallow hexec).core.fine

def registerWrite : Bytes := [0x88,0,1,0,0,0,0x17,0,0,0] ++ List.replicate 16 1

/-- The request of the client that is visited next is received. -/
def received : List Label :=
  [.serve .nothing,.serve (.count (some 26)),.serve .nothing,.serve .nothing,.serve .nothing]

/-- An administrator and a client with port 3000 ask for the same; one is obeyed, the other
refused. -/
def twoClients : List Label :=
  [.connect 1000,.connect 3000,.accept 5,.listen .nothing,.listen (.polled true),.accept 6,
    .listen .nothing,
    .listen (.polled true),.write 1 registerWrite,.write 0 registerWrite,.serve (.polled true),
    .serve .nothing,
    .serve .nothing] ++ received ++ received ++
  [.work 1 .nothing,.work 0 .nothing,.work 1 .nothing,.work 0 .nothing,.work 0 (.device (.ok [])),
    .work 1 .nothing,
    .work 0 .nothing,.work 0 .nothing,.work 1 .nothing,.work 0 .nothing,.work 0 .nothing,.hangUp 0,
    .serve .nothing,
    .serve (.polled true),.destroy 0]

theorem two_clients_apart :
    (exec step init twoClients).map State.log =
        some [.closed 0 true,.exchanged 0 0,.exchanged 1 1,.effect (.writeBytes 23 [1]) 1000] ∧
      ∀ t,exec step init twoClients = some t → ∀ ev ∈ t.log,Fine ev := by
  refine ⟨rfl,?_⟩
  intro t ht
  refine sessions_apart ht ?_
  iterate 38 refine .cons (by first | exact trivial | exact rfl) rfl ?_
  exact trivial

/-- The session of port 2000 is shut down with descriptor 5 left in it. Before it is swept, the
client with port 3000 is accepted on 5: it is served as an administrator through the old session,
which then takes the place of its own, and its object is destroyed. -/
def reused : List Label :=
  [.connect 2000,.accept 5,.listen .nothing,.listen (.polled true),.write 0 (registerWrite ++ [0]),
    .serve (.polled true),.serve .nothing,.serve .nothing,.serve .nothing,.serve (.count (some 26)),
    .serve .nothing,
    .connect 3000,.accept 5,.write 1 registerWrite,.serve .nothing,.serve (.polled true),
    .serve .nothing,
    .serve .nothing,.serve .nothing,.serve (.count (some 26)),.serve .nothing,.serve .nothing,
    .serve .nothing,
    .work 0 .nothing,.work 0 .nothing,.work 0 (.device (.ok [])),.work 0 .nothing,.work 0 .nothing,
    .listen .nothing,
    .listen (.polled true),.work 0 .nothing,.destroy 1]

theorem reused_descriptor_obeyed :
    (exec step init reused).map State.log =
        some [.closed 1 false,.exchanged 1 1,.effect (.writeBytes 23 [1]) 3000,.closed 0 true] ∧
      ¬Fine (.effect (.writeBytes 23 [1]) 3000) ∧ ¬Fine (.closed 1 false) := by
  refine ⟨rfl,?_,?_⟩
  · exact not_lt.mpr (by decide)
  · exact false_ne_true

end Mpss.Proofs.ClientsApart
