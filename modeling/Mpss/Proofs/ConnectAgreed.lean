import Mpss.Library.Counting
import Mpss.Library.Runs
import Mpss.Scif.Connect

namespace Mpss.Proofs.ConnectAgreed
open Library.Counting Library.Runs Scif.Connect List Function Option

/-- A connected endpoint and the one accepted for its present attempt name each other, and no other
is connected to it. -/
structure Agreed (s : Net) : Prop where
  connected : ∀ c,(s.connector c).state = .connected →
    ∃ a,s.accepted (s.connector c).remoteEp = some a ∧ a.remoteEp = c ∧
      a.attempt = (s.connector c).attempt ∧ a.qpOffset = (s.connector c).gntPld
  unique : ∀ x y a b,s.accepted x = some a → s.accepted y = some b → a.state = .connected →
    b.state = .connected → a.remoteEp = b.remoteEp → x = y

/-- Something of an earlier attempt of the endpoint can still lead to a grant for it. -/
def Outstanding (s : Net) (c : Nat) : Prop :=
  (∃ r,.req r ∈ s.inFlight ∧ r.ep = c) ∨ (∃ qpOffset x,.gnt c qpOffset x ∈ s.inFlight) ∨
    (∃ port l r,s.listener port = some l ∧ r ∈ l.conlist ∧ r.ep = c) ∨
    ∃ x a,s.accepted x = some a ∧ a.remoteEp = c ∧ a.granted = false

def Allowed (s : Net) : Act → Prop
  | .connect c _ => ¬ Outstanding s c
  | _ => True

/-- The endpoint has taken the grant of the accepted endpoint in its `remote_ep`. -/
def Names (k : Connector) : Prop := k.state = .mapping ∨ k.state = .connected

/-- It has also sent the acknowledgement. -/
def Linked (k : Connector) : Prop := k.phase = .acking ∨ k.state = .connected

/-- The grant of an accepted endpoint, until it is taken or refused. -/
def offers : Msg → Option Nat
  | .gnt _ _ x => some x
  | .gntNack x => some x
  | _ => none

structure Phased (k : Connector) : Prop where
  acking : k.phase = .acking → k.state = .mapping
  connected : k.state = .connected → k.phase = .idle

/-- The accepted endpoint behind a grant to `c`, taken or in flight. -/
structure Granted (s : Net) (c qpOffset x : Nat) (a : Accepted) : Prop where
  found : s.accepted x = some a
  remoteEp : a.remoteEp = c
  qpOffset : a.qpOffset = qpOffset
  granted : a.granted = true
  attempt : a.attempt = (s.connector c).attempt

def Unoffered (s : Net) (x : Nat) : Prop := holders offers s.inFlight x = 0

structure Inv (s : Net) : Prop where
  phased : ∀ c,Phased (s.connector c)
  named : ∀ c,Names (s.connector c) → Unoffered s (s.connector c).remoteEp ∧
    ∃ a,Granted s c (s.connector c).gntPld (s.connector c).remoteEp a ∧ a.state ≠ .closing
  offered : ∀ c qpOffset x,.gnt c qpOffset x ∈ s.inFlight → ∃ a,Granted s c qpOffset x a
  once : ∀ x,holders offers s.inFlight x ≤ 1
  unused : ∀ x,s.accepted x = none → Unoffered s x
  fresh : ∀ x a,s.accepted x = some a → a.granted = false →
    Unoffered s x ∧ a.attempt = (s.connector a.remoteEp).attempt ∧ a.state = .connecting
  closing : ∀ x a,s.accepted x = some a → a.state = .closing → Unoffered s x
  asked : ∀ r,.req r ∈ s.inFlight → r.attempt = (s.connector r.ep).attempt
  queued : ∀ port l,s.listener port = some l → ∀ r ∈ l.conlist,r.attempt = (s.connector r.ep).attempt
  acked : ∀ x,.gntAck x ∈ s.inFlight → ∃ c,Linked (s.connector c) ∧ (s.connector c).remoteEp = x
  joined : ∀ x a,s.accepted x = some a → a.state = .connected →
    ∃ c,Linked (s.connector c) ∧ (s.connector c).remoteEp = x

theorem connector_same (s : Net) (c : Nat) (k : Connector) : (s.setConnector c k).connector c = k :=
    update_self _ _ _

theorem connector_other (hd : d ≠ c) (k : Connector) :
    (Net.setConnector s c k).connector d = s.connector d := update_of_ne hd _ _

theorem accepted_same (s : Net) (x : Nat) (v : Option Accepted) : (s.setAccepted x v).accepted x = v :=
  update_self _ _ _

theorem accepted_other (hy : y ≠ x) (v : Option Accepted) :
    (Net.setAccepted s x v).accepted y = s.accepted y := update_of_ne hy _ _

theorem Phased.names (h : Phased k) (hl : Linked k) : Names k := by
  rcases hl with hl | hl
  · exact .inl (h.acking hl)
  · exact .inr hl

theorem Inv.agreed (h : Inv s) : Agreed s := by
  refine ⟨?_,?_⟩
  · intro c hc
    obtain ⟨_,a,hg,_⟩ := h.named c (.inr hc)
    exact ⟨a,hg.found,hg.remoteEp,hg.attempt,hg.qpOffset⟩
  intro x y a b ha hb hac hbc he
  have hba : ∀ z d,s.accepted z = some d → d.state = .connected →
      (s.connector d.remoteEp).remoteEp = z := by
    intro z d hd hdc
    obtain ⟨c,hl,rfl⟩ := h.joined z d hd hdc
    obtain ⟨_,e,hg,_⟩ := h.named c ((h.phased c).names hl)
    have hed : e = d := some.inj (hg.found.symm.trans hd)
    rw [← hed,hg.remoteEp]
  rw [← hba x a ha hac,← hba y b hb hbc,he]

theorem Inv.init : Inv Net.init where
  phased := fun _ => ⟨fun h => (by cases h),fun h => (by cases h)⟩
  named := fun _ h => by rcases h with h | h <;> cases h
  offered := fun _ _ _ h => by cases h
  once := fun _ => Nat.zero_le 1
  unused := fun _ _ => rfl
  fresh := fun _ _ h => by cases h
  closing := fun _ _ h => by cases h
  asked := fun _ h => by cases h
  queued := fun _ _ h => by cases h
  acked := fun _ h => by cases h
  joined := fun _ _ h => by cases h

/-- Another state of a connecting endpoint: it keeps its attempt while that is asked for anywhere,
holds a grant that nobody else can use, and drops no acknowledged one. -/
theorem Inv.connector (h : Inv s) (c : Nat) (k : Connector) (hp : Phased k)
    (ha : Outstanding s c → k.attempt = (s.connector c).attempt)
    (hn : Names k → k.attempt = (s.connector c).attempt ∧ Unoffered s k.remoteEp ∧
      ∃ a,Granted s c k.gntPld k.remoteEp a ∧ a.state ≠ .closing)
    (hl : Linked (s.connector c) → Linked k ∧ k.remoteEp = (s.connector c).remoteEp) :
      Inv (s.setConnector c k) := by
  set t := s.setConnector c k
  have hot : ∀ d,d ≠ c → t.connector d = s.connector d := fun d hd => connector_other hd k
  have hsl := connector_same s c k
  have hatt : ∀ d,(d = c → Outstanding s c) →
      (s.connector d).attempt = (t.connector d).attempt := by
    intro d ho
    by_cases hd : d = c
    · rw [hd,hsl,ha (ho hd)]
    · rw [hot d hd]
  have hln : ∀ d x,Linked (s.connector d) → (s.connector d).remoteEp = x →
      Linked (t.connector d) ∧ (t.connector d).remoteEp = x := by
    intro d x hd hx
    by_cases he : d = c
    · subst he
      rw [hsl]
      exact ⟨(hl hd).1,(hl hd).2.trans hx⟩
    · rw [hot d he]
      exact ⟨hd,hx⟩
  have hgr : ∀ {d q x a},Granted s d q x a →
      (s.connector d).attempt = (t.connector d).attempt → Granted t d q x a :=
    fun hg he => { hg with attempt := hg.attempt.trans he }
  refine ⟨?_,?_,?_,h.once,h.unused,?_,h.closing,?_,?_,?_,?_⟩
  · intro d
    by_cases hd : d = c
    · rw [hd,hsl]
      exact hp
    · rw [hot d hd]
      exact h.phased d
  · intro d hd
    by_cases he : d = c
    · subst he
      rw [hsl] at hd ⊢
      obtain ⟨hk,hu,a,hg,hs⟩ := hn hd
      refine ⟨hu,a,hgr hg ?_,hs⟩
      rw [hsl,hk]
    · rw [hot d he] at hd ⊢
      obtain ⟨hu,a,hg,hs⟩ := h.named d hd
      refine ⟨hu,a,hgr hg ?_,hs⟩
      rw [hot d he]
  · intro d q x hm
    obtain ⟨a,hg⟩ := h.offered d q x hm
    refine ⟨a,hgr hg (hatt d ?_)⟩
    rintro rfl
    exact .inr (.inl ⟨q,x,hm⟩)
  · intro x a hx hf
    obtain ⟨hu,hat,hst⟩ := h.fresh x a hx hf
    refine ⟨hu,hat.trans (hatt _ ?_),hst⟩
    intro he
    exact .inr (.inr (.inr ⟨x,a,hx,he,hf⟩))
  · intro r hr
    refine (h.asked r hr).trans (hatt _ ?_)
    intro he
    exact .inl ⟨r,hr,he⟩
  · intro port l hpl r hr
    refine (h.queued port l hpl r hr).trans (hatt _ ?_)
    intro he
    exact .inr (.inr (.inl ⟨port,l,r,hpl,hr,he⟩))
  · intro x hx
    obtain ⟨d,hd,hdx⟩ := h.acked x hx
    exact ⟨d,hln d x hd hdx⟩
  · intro x a hx hc
    obtain ⟨d,hd,hdx⟩ := h.joined x a hx hc
    exact ⟨d,hln d x hd hdx⟩

def Sendable (s : Net) : Msg → Prop
  | .req r => r.attempt = (s.connector r.ep).attempt
  | .gnt c qpOffset x => Unoffered s x ∧ (∃ a,Granted s c qpOffset x a ∧ a.state ≠ .closing) ∧
      ∀ d,Names (s.connector d) → (s.connector d).remoteEp ≠ x
  | .gntAck x => ∃ c,Linked (s.connector c) ∧ (s.connector c).remoteEp = x
  | .gntNack x => Unoffered s x ∧ (∃ a,s.accepted x = some a ∧ a.granted = true ∧
      a.state ≠ .closing) ∧ ∀ d,Names (s.connector d) → (s.connector d).remoteEp ≠ x
  | .rej _ => True

def Unnamed (s : Net) (x : Nat) : Prop := ∀ c,Names (s.connector c) → (s.connector c).remoteEp ≠ x

section
variable (h : Inv s)
include h

theorem Inv.erase (hm : m ∈ s.inFlight) : Inv { s with inFlight := s.inFlight.erase m } := by
  have hle : ∀ x,holders offers (s.inFlight.erase m) x ≤ holders offers s.inFlight x := by
    intro x
    have := holders_erase offers hm x
    omega
  have hz : ∀ {x},Unoffered s x → Unoffered { s with inFlight := s.inFlight.erase m } x :=
    fun {x} hu => Nat.eq_zero_of_le_zero (hu ▸ hle x)
  have hmm : ∀ {n},n ∈ s.inFlight.erase m → n ∈ s.inFlight := mem_of_mem_erase
  refine ⟨h.phased,?_,?_,fun x => (hle x).trans (h.once x),fun x hx => hz (h.unused x hx),
    ?_,fun x a hx hc => hz (h.closing x a hx hc),fun r hr => h.asked r (hmm hr),h.queued,
    fun x hx => h.acked x (hmm hx),h.joined⟩
  · intro c hc
    obtain ⟨hu,a,hg,hs⟩ := h.named c hc
    exact ⟨hz hu,a,{ hg with },hs⟩
  · intro c q x hx
    obtain ⟨a,hg⟩ := h.offered c q x (hmm hx)
    exact ⟨a,{ hg with }⟩
  · intro x a hx hf
    obtain ⟨hu,hr⟩ := h.fresh x a hx hf
    exact ⟨hz hu,hr⟩

theorem Inv.send (hm : Sendable s m) : Inv (s.send m) := by
  have hop : ∀ x,offers m = some x → Unoffered s x ∧
      (∃ a,s.accepted x = some a ∧ a.granted = true ∧ a.state ≠ .closing) ∧ Unnamed s x := by
    intro x hx
    cases m with
    | gnt c q y =>
      cases hx
      obtain ⟨hu,⟨a,hg,hs⟩,hd⟩ := hm
      exact ⟨hu,⟨a,hg.found,hg.granted,hs⟩,hd⟩
    | gntNack y =>
      cases hx
      exact hm
    | req | gntAck | rej => cases hx
  have hcn : ∀ x,holders offers (s.send m).inFlight x =
      holders offers s.inFlight x + if offers m = some x then 1 else 0 :=
    fun x => holders_cons offers m s.inFlight x
  have hz : ∀ {x},offers m ≠ some x → Unoffered s x → Unoffered (s.send m) x := by
    intro x hx hu
    have := hcn x
    rw [if_neg hx,hu] at this
    exact this
  refine ⟨h.phased,?_,?_,?_,?_,?_,?_,?_,h.queued,?_,h.joined⟩
  · intro c hc
    obtain ⟨hu,a,hg,hs⟩ := h.named c hc
    refine ⟨hz (fun hx => (hop _ hx).2.2 c hc rfl) hu,a,?_,hs⟩
    exact { hg with }
  · intro c q x hx
    have hgt : ∃ a,Granted s c q x a := by
      rcases mem_cons.mp hx with rfl | hx
      · obtain ⟨_,⟨a,hg,_⟩,_⟩ := hm
        exact ⟨a,hg⟩
      · exact h.offered c q x hx
    obtain ⟨a,hg⟩ := hgt
    exact ⟨a,{ hg with }⟩
  · intro x
    rw [hcn x]
    have hon := h.once x
    split_ifs with hx
    · have : holders offers s.inFlight x = 0 := (hop x hx).1
      omega
    · exact hon
  · intro x hx
    refine hz ?_ (h.unused x hx)
    intro ho
    obtain ⟨_,⟨a,ha,_⟩,_⟩ := hop x ho
    rw [show s.accepted x = none from hx] at ha
    cases ha
  · intro x a hx hf
    obtain ⟨hu,hr⟩ := h.fresh x a hx hf
    refine ⟨hz ?_ hu,hr⟩
    intro ho
    obtain ⟨_,⟨b,hb,hgr,_⟩,_⟩ := hop x ho
    have hab : a = b := some.inj (hx.symm.trans hb)
    rw [← hab,hf] at hgr
    cases hgr
  · intro x a hx hc
    refine hz ?_ (h.closing x a hx hc)
    intro ho
    obtain ⟨_,⟨b,hb,_,hs⟩,_⟩ := hop x ho
    have hab : a = b := some.inj (hx.symm.trans hb)
    exact hs (hab ▸ hc)
  · intro r hr
    rcases mem_cons.mp hr with rfl | hr
    · exact hm
    · exact h.asked r hr
  · intro x hx
    rcases mem_cons.mp hx with rfl | hx
    · exact hm
    · exact h.acked x hx

theorem Inv.unnamed (hx : ∀ a,s.accepted x = some a → a.granted = true → a.state = .closing) :
    Unnamed s x := by
  intro c hc hcx
  obtain ⟨_,a,hg,hs⟩ := h.named c hc
  rw [hcx] at hg
  exact hs (hx a hg.found hg.granted)

/-- What is at an address may change while no grant of it is on its way, if the endpoint that has
taken its grant sees no difference. -/
theorem Inv.accepted (hu : Unoffered s x) (v : Option Accepted)
    (hn : ∀ c,Names (s.connector c) → (s.connector c).remoteEp = x → ∃ a,
      Granted (s.setAccepted x v) c (s.connector c).gntPld x a ∧ a.state ≠ .closing)
    (hf : ∀ a,v = some a → a.granted = false → a.attempt = (s.connector a.remoteEp).attempt ∧
      a.state = .connecting)
    (hj : ∀ a,v = some a → a.state = .connected → ∃ c,Linked (s.connector c) ∧
      (s.connector c).remoteEp = x) :
    Inv (s.setAccepted x v) := by
  have ho : ∀ y,y ≠ x → (s.setAccepted x v).accepted y = s.accepted y :=
    fun y hy => accepted_other hy v
  have hsl := accepted_same s x v
  have hgr : ∀ {d q y a},y ≠ x → Granted s d q y a → Granted (s.setAccepted x v) d q y a :=
    fun hy hg => { hg with found := (ho _ hy).trans hg.found }
  refine ⟨h.phased,?_,?_,h.once,?_,?_,?_,h.asked,h.queued,h.acked,?_⟩
  · intro c hc
    obtain ⟨hof,a,hg,hs⟩ := h.named c hc
    by_cases hx : (s.connector c).remoteEp = x
    · obtain ⟨b,hb⟩ := hn c hc hx
      exact ⟨hof,b,hx ▸ hb⟩
    · exact ⟨hof,a,hgr hx hg,hs⟩
  · intro c q y hm
    obtain ⟨a,hg⟩ := h.offered c q y hm
    refine ⟨a,hgr ?_ hg⟩
    rintro rfl
    have hp : 0 < holders offers s.inFlight y := holders_pos hm rfl
    have hz : holders offers s.inFlight y = 0 := hu
    omega
  · intro y hy
    by_cases he : y = x
    · exact he ▸ hu
    · exact h.unused y (ho y he ▸ hy)
  · intro y a hy hfa
    by_cases he : y = x
    · subst he
      exact ⟨hu,hf a (hsl ▸ hy) hfa⟩
    · exact h.fresh y a (ho y he ▸ hy) hfa
  · intro y a hy hc
    by_cases he : y = x
    · exact he ▸ hu
    · exact h.closing y a (ho y he ▸ hy) hc
  · intro y a hy hc
    by_cases he : y = x
    · subst he
      exact hj a (hsl ▸ hy) hc
    · exact h.joined y a (ho y he ▸ hy) hc

theorem Inv.ack (hl : ∃ c,Linked (s.connector c) ∧ (s.connector c).remoteEp = x) :
    Inv (scifCnctgntAck s x) := by
  obtain ⟨c,hlc,hx⟩ := hl
  obtain ⟨hu,a,hg,_⟩ := h.named c ((h.phased c).names hlc)
  rw [hx] at hu hg
  rw [scifCnctgntAck,setState,hg.found]
  refine h.accepted hu _ ?_ ?_ ?_
  · intro d hd hdx
    obtain ⟨_,b,hb,_⟩ := h.named d hd
    rw [hdx] at hb
    have hab : b = a := some.inj (hb.found.symm.trans hg.found)
    subst hab
    refine ⟨{ b with state := .connected },?_,by simp⟩
    exact { hb with found := accepted_same _ _ _ }
  · intro b hb hf
    cases hb
    rw [hg.granted] at hf
    cases hf
  · intro b hb _
    exact ⟨c,hlc,hx⟩

theorem Inv.nack (hu : Unoffered s x) (hn : Unnamed s x)
    (hg : ∀ a,s.accepted x = some a → a.granted = true) : Inv (scifCnctgntNack s x) := by
  refine h.accepted hu _ (fun c hc hcx => absurd hcx (hn c hc)) ?_ ?_
  · intro a ha hf
    obtain ⟨b,hb,rfl⟩ := map_eq_some_iff.mp ha
    have hgr : b.granted = false := hf
    rw [hg b hb] at hgr
    cases hgr
  · intro a ha hc
    obtain ⟨b,hb,rfl⟩ := map_eq_some_iff.mp ha
    cases hc

theorem Inv.freed (hu : Unoffered s x) (hn : Unnamed s x) : Inv (s.setAccepted x none) :=
  h.accepted hu none (fun c hc hcx => absurd hcx (hn c hc)) (fun _ ha => nomatch ha)
    (fun _ ha => nomatch ha)

theorem Inv.listener (port : Nat) (l : Listener)
    (hl : ∀ r ∈ l.conlist,r.attempt = (s.connector r.ep).attempt) : Inv (s.setListener port l) := by
  refine { h with named := ?_,offered := ?_,queued := ?_ }
  · intro c hc
    obtain ⟨hu,a,hg,hs⟩ := h.named c hc
    exact ⟨hu,a,{ hg with },hs⟩
  · intro c q x hm
    obtain ⟨a,hg⟩ := h.offered c q x hm
    exact ⟨a,{ hg with }⟩
  intro p m hp r hr
  by_cases he : p = port
  · subst he
    have hsl : (s.setListener p l).listener p = some l := update_self _ _ _
    rw [hsl] at hp
    exact hl r (some.inj hp ▸ hr)
  · have hm : s.listener p = some m := (update_of_ne he _ _).symm.trans hp
    exact h.queued p m hm r hr

theorem Inv.unlinked (hb : (s.connector c).phase = .begun ∨ (s.connector c).phase = .waiting) :
    ¬ Linked (s.connector c) := by
  intro hl
  rcases hl with hl | hl
  · rw [hl] at hb
    rcases hb with hb | hb <;> cases hb
  · rw [(h.phased c).connected hl] at hb
    rcases hb with hb | hb <;> cases hb

theorem Inv.let_go (k : Connector) (hp : k.phase ≠ .acking) (hn : ¬ Names k)
    (ha : Outstanding s c → k.attempt = (s.connector c).attempt) (hu : ¬ Linked (s.connector c)) :
    Inv (s.setConnector c k) :=
  h.connector c k ⟨fun hk => absurd hk hp,fun hk => absurd (.inr hk) hn⟩ ha (fun hk => absurd hk hn)
    (fun hl => absurd hl hu)

theorem Inv.given_up (hu : ¬ Linked (s.connector c)) :
    Inv (s.setConnector c { s.connector c with phase := .idle,state := .bound }) :=
  h.let_go _ (by simp) (by simp [Names]) (fun _ => rfl) hu

theorem Inv.rephased (hu : ¬ Linked (s.connector c)) (hp : p ≠ .acking) :
    Inv (s.setConnector c { s.connector c with phase := p }) := by
  refine h.connector c _ ⟨?_,?_⟩ (fun _ => rfl) ?_ (fun hl => absurd hl hu)
  · intro hk
    exact absurd hk hp
  · intro hk
    exact absurd (.inr hk) hu
  · intro hk
    exact ⟨rfl,h.named c hk⟩

theorem Inv.connectSend (hb : (s.connector c).phase = .begun) (r : Start) :
    Inv (connectSend s c r) := by
  have hu := h.unlinked (.inl hb)
  cases r with
  | noQp => exact h.given_up hu
  | unsent => exact h.rephased hu (by decide)
  | sent =>
    refine (h.rephased hu (by decide)).send ?_
    change _ = ((s.setConnector c _).connector c).attempt
    rw [connector_same]

theorem Inv.connectWake (hw : (s.connector c).phase = .waiting) (r : Mapped) :
    Inv (connectWake s c r) := by
  have hu := h.unlinked (.inr hw)
  unfold Scif.Connect.connectWake
  simp only
  split_ifs with hm
  · obtain ⟨ho,a,hg,hs⟩ := h.named c (.inl hm)
    cases r with
    | acked =>
      have ht : Inv (s.setConnector c { s.connector c with phase := .acking }) := by
        refine h.connector c _ ⟨fun _ => hm,?_⟩ (fun _ => rfl) ?_ (fun hl => absurd hl hu)
        · intro hk
          rw [hm] at hk
          cases hk
        · intro _
          exact ⟨rfl,ho,a,hg,hs⟩
      refine ht.send ⟨c,?_⟩
      rw [connector_same]
      exact ⟨.inl rfl,rfl⟩
    | unmapped nackSent =>
      have ht := h.given_up hu
      cases nackSent with
      | false => exact ht
      | true =>
        refine ht.send ⟨ho,⟨a,hg.found,hg.granted,hs⟩,?_⟩
        intro d hd hx
        by_cases hdc : d = c
        · subst hdc
          rw [connector_same] at hd
          rcases hd with hd | hd <;> cases hd
        rw [connector_other hdc] at hd hx
        obtain ⟨_,b,hb,_⟩ := h.named d hd
        rw [hx] at hb
        have hab : b = a := some.inj (hb.found.symm.trans hg.found)
        exact hdc (hb.remoteEp.symm.trans (hab ▸ hg.remoteEp))
    | ackUnsent => exact h.given_up hu
  · exact h.rephased hu (by decide)

theorem Inv.connectDone (ha : (s.connector c).phase = .acking) :
    Inv (s.setConnector c { s.connector c with phase := .idle,state := .connected }) := by
  refine h.connector c _ ⟨?_,fun _ => rfl⟩ (fun _ => rfl) ?_ (fun _ => ⟨.inr rfl,rfl⟩)
  · intro hk
    cases hk
  · intro _
    exact ⟨rfl,h.named c (.inl ((h.phased c).acking ha))⟩

theorem Inv.connect (hi : (s.connector c).phase = .idle)
    (hb : (s.connector c).state = .bound ∨ (s.connector c).state = .unbound)
    (ho : ¬ Outstanding s c) (port attempt : Nat) :
    Inv (s.setConnector c { s.connector c with state := .connecting,phase := .begun,connPort := port,
                                               attempt := attempt }) := by
  refine h.let_go _ (by simp) (by simp [Names]) (fun hs => absurd hs ho) ?_
  intro hl
  rcases hl with hl | hl
  · rw [hi] at hl
    cases hl
  · rw [hl] at hb
    rcases hb with hb | hb <;> cases hb

theorem Inv.cnctreq (hr : r.attempt = (s.connector r.ep).attempt) : Inv (scifCnctreq s r mem) := by
  unfold scifCnctreq
  split
  · rename_i l hl
    split
    · apply h.listener
      intro q hq
      rcases mem_append.mp hq with hq | hq
      · exact h.queued r.port l hl q hq
      · rw [mem_singleton.mp hq]
        exact hr
    · exact h.send trivial
  · exact h.send trivial

theorem Inv.cnctgnt (hu : Unoffered s x) (hg : Granted s c q x a) (hs : a.state ≠ .closing) :
    Inv (scifCnctgnt s c q x) := by
  unfold scifCnctgnt
  simp only
  split_ifs with hc
  · refine h.connector c _ ⟨fun _ => rfl,?_⟩ (fun _ => rfl) (fun _ => ⟨rfl,hu,a,hg,hs⟩) ?_
    · intro hk
      cases hk
    · intro hl
      rcases (h.phased c).names hl with hn | hn <;> rw [hc] at hn <;> cases hn
  · exact h

theorem Inv.cnctrej : Inv (scifCnctrej s c) := by
  unfold scifCnctrej
  simp only
  split_ifs with hc
  · have hno : ¬ Names (s.connector c) := by simp [Names,hc]
    refine h.let_go _ ?_ (by simp [Names]) (fun _ => rfl) (fun hl => hno ((h.phased c).names hl))
    exact fun hk => hno (.inl ((h.phased c).acking hk))
  · exact h

theorem Inv.deliver (hm : m ∈ s.inFlight) (mem : Bool) :
    Inv (handle { s with inFlight := s.inFlight.erase m } mem m) := by
  have he := h.erase hm
  have hgn : ∀ x,offers m = some x → Unoffered { s with inFlight := s.inFlight.erase m } x := by
    intro x hx
    have h1 := holders_erase offers hm x
    have h2 := h.once x
    rw [if_pos hx] at h1
    change holders offers (s.inFlight.erase m) x = 0
    omega
  have hp : ∀ x,offers m = some x → ¬ Unoffered s x := by
    intro x hx hz
    have := holders_pos hm hx
    have hz : holders offers s.inFlight x = 0 := hz
    omega
  cases m with
  | req r => exact he.cnctreq (h.asked r hm)
  | gnt c q x =>
    obtain ⟨a,hg⟩ := h.offered c q x hm
    have hs : a.state ≠ .closing := fun hc => hp x rfl (h.closing x a hg.found hc)
    exact he.cnctgnt (hgn x rfl) { hg with } hs
  | gntAck x => exact he.ack (h.acked x hm)
  | gntNack x =>
    refine he.nack (hgn x rfl) ?_ ?_
    · intro c hc hcx
      exact hp x rfl (hcx ▸ (h.named c hc).1)
    · intro a ha
      cases hgr : a.granted with
      | true => rfl
      | false => exact absurd (h.fresh x a ha hgr).1 (hp x rfl)
  | rej c => exact he.cnctrej

theorem Inv.fresh_unnamed (hx : s.accepted x = some a) (hf : a.granted = false) : Unnamed s x := by
  apply h.unnamed
  intro b hb hgr
  rw [← some.inj (hx.symm.trans hb),hf] at hgr
  cases hgr

theorem Inv.acceptGrant (hx : s.accepted x = some a) (hf : a.granted = false) (q : Nat) :
    Inv ((s.setAccepted x (some { a with granted := true,qpOffset := q })).send
    (.gnt a.remoteEp q x)) := by
  obtain ⟨hu,hat,hst⟩ := h.fresh x a hx hf
  have hn := h.fresh_unnamed hx hf
  have ht : Inv (s.setAccepted x (some { a with granted := true,qpOffset := q })) := by
    refine h.accepted hu _ (fun c hc hcx => absurd hcx (hn c hc)) ?_ ?_
    · intro b hb hgr
      cases hb
      cases hgr
    · intro b hb hc
      cases hb
      rw [hst] at hc
      cases hc
  refine ht.send ⟨hu,⟨_,⟨accepted_same _ _ _,rfl,rfl,rfl,hat⟩,?_⟩,hn⟩
  rw [hst]
  decide

theorem Inv.step (ha : Allowed s act) (hr : s.step act = some t) : Inv t := by
  cases act with
  | listen port backlog => exact of_guard hr (fun _ => h.listener port _ (fun r hm => nomatch hm))
  | connect c port => exact of_guard hr (fun hg => h.connect hg.1 hg.2 ha port _)
  | connectSend c r => exact of_guard hr (fun hb => h.connectSend hb r)
  | connectTimeout c => exact of_guard hr (fun hw => h.given_up (h.unlinked (.inr hw)))
  | connectWake c r => exact of_guard hr (fun hg => h.connectWake hg.1 r)
  | connectDone c => exact of_guard hr h.connectDone
  | deliver m mem => exact of_guard hr (fun hm => h.deliver hm mem)
  | accept port x =>
    simp only [Net.step] at hr
    split at hr
    · rename_i backlog r conlist hl hx
      cases hr
      have hq := h.queued port _ hl
      have ht := h.listener port ⟨backlog,conlist⟩ (forall_mem_cons.mp hq).2
      have hn : Unnamed s x := h.unnamed (fun a ha => by rw [hx] at ha; cases ha)
      refine ht.accepted (h.unused x hx) _ (fun c hc hcx => absurd hcx (hn c hc)) ?_ ?_
      · intro a hv _
        cases hv
        exact ⟨hq r mem_cons_self,rfl⟩
      · intro a hv hc
        cases hv
        cases hc
    · cases hr
  | acceptNoMem port =>
    simp only [Net.step] at hr
    split at hr
    · rename_i backlog r conlist hl
      cases hr
      have hq := h.queued port _ hl
      have ht := h.listener port ⟨backlog,conlist⟩ (forall_mem_cons.mp hq).2
      exact ht.send trivial
    · cases hr
  | acceptGrant x q =>
    simp only [Net.step] at hr
    split at hr
    · rename_i a hx
      exact of_unless hr (fun hgr => h.acceptGrant hx (Bool.eq_false_iff.mpr hgr) q)
    · cases hr
  | acceptFail x =>
    simp only [Net.step] at hr
    split at hr
    · rename_i a hx
      refine of_unless hr (fun hgr => ?_)
      have hf := Bool.eq_false_iff.mpr hgr
      exact (h.freed (h.fresh x a hx hf).1 (h.fresh_unnamed hx hf)).send trivial
    · cases hr
  | acceptNacked x =>
    simp only [Net.step] at hr
    split at hr
    · rename_i a hx
      refine of_guard hr (fun hc => ?_)
      refine h.freed (h.closing x a hx hc) (h.unnamed ?_)
      intro b hb _
      rw [← some.inj (hx.symm.trans hb)]
      exact hc
    · cases hr

end

/-- In runs whose connects are called with nothing of an earlier attempt outstanding, the two ends
of a connection agree. -/
theorem connection_agreed (as : List Act) (s : Net) (ha : Along Net.step Allowed Net.init as)
    (hr : exec Net.step Net.init as = some s) : Agreed s :=
  (exec_invariant (fun _ _ _ hi hok hs => Inv.step hi hok hs) Inv.init ha hr).agreed

def connectOnce : List Act :=
  [.listen 10 4,.connect 0 10,.connectSend 0 .sent,.deliver (.req ⟨0,10,1⟩) true,.accept 10 7,
    .acceptGrant 7 55,.deliver (.gnt 0 55 7) true,.connectWake 0 .acked,.connectDone 0,
    .deliver (.gntAck 7) true]

theorem connected_once :
    ∃ s,exec Net.step Net.init connectOnce = some s ∧ (s.connector 0).state = .connected ∧
    Agreed s := by
  have hls : ¬ Outstanding (Net.init.setListener 10 ⟨4,[]⟩) 0 := by
    rintro (⟨r,hr,_⟩ | ⟨q,x,hx⟩ | ⟨port,l,r,hl,hr,_⟩ | ⟨x,a,ha,_⟩)
    · cases hr
    · cases hx
    · by_cases hp : port = 10
      · subst hp
        cases hl
        cases hr
      · rw [show (Net.init.setListener 10 ⟨4,[]⟩).listener port = none from
          update_of_ne hp _ _] at hl
        cases hl
    · cases ha
  have ha : Along Net.step Allowed Net.init connectOnce := by
    refine Along.cons trivial rfl (Along.cons hls rfl ?_)
    iterate 8 refine Along.cons trivial rfl ?_
    trivial
  exact ⟨_,rfl,rfl,connection_agreed connectOnce _ ha rfl⟩

/-- The grant of a first attempt to port 10, which timed out, connects a second attempt that
asked for port 20. -/
theorem late_grant_connects :
    ∃ s,exec Net.step Net.init
      [.listen 10 4,.connect 0 10,.connectSend 0 .sent,.deliver (.req ⟨0,10,1⟩) true,.accept 10 7,
        .connectTimeout 0,.connect 0 20,.connectSend 0 .sent,.acceptGrant 7 55,
        .deliver (.gnt 0 55 7) true,.connectWake 0 .acked,.connectDone 0] = some s ∧
      (s.connector 0).state = .connected ∧ (s.connector 0).connPort = 20 ∧
        (s.connector 0).attempt = 2 ∧
      (s.accepted (s.connector 0).remoteEp).map (·.attempt) = some 1 ∧ ¬ Agreed s := by
  refine ⟨_,rfl,rfl,rfl,rfl,rfl,fun h => ?_⟩
  obtain ⟨a,ha,_,hat,_⟩ := h.connected 0 rfl
  cases ha
  cases hat

end Mpss.Proofs.ConnectAgreed
