import Mathlib.Algebra.Order.Group.Multiset
import Mpss.Vnet.VethDma

namespace Mpss.Proofs.VnetLink
open Library.Bytes Vnet.VethDma List

/-- One direction: a posted buffer is filled or being filled, known to the sender, or on its way to
it; a packet waits, travels, or has landed. -/
structure Link (β : Type) where
  posted : List Buf
  landed : List (SchedNode β)
  flying : List (SchedNode β)
  known : List Buf
  announced : List Buf
  waiting : List (Packet β)
  credits : Nat
  mem : Memory β
  accepted : List (Packet β)
  delivered : List (Nat × List β)
  lostTx : List (Packet β)
  lostRx : List (Packet β)
  complete : List (SchedNode β)

def tag (p : Packet β) : Nat × List β := (p.id,p.bytes)

variable {β : Type} {p : Packet β} {d b : Buf} {n : SchedNode β} {m : Memory β}
  {around : Nat → β} {l : Link β}

/-- A transfer as it is set up, into a buffer that is large enough. -/
structure Fits (n : SchedNode β) : Prop where
  made : n = schedNode n.skb n.buf
  room : n.size + 3 * DMA_ALIGNMENT ≤ n.buf.size

theorem Fits.of_sched (h : p.bytes.length + 3 * DMA_ALIGNMENT ≤ d.size) : Fits (schedNode p d) :=
    ⟨rfl,h⟩

theorem align_bounds (n : Nat) : n ≤ align n ∧ align n < n + DMA_ALIGNMENT := by
  unfold align DMA_ALIGNMENT
  omega

theorem Fits.place (h : Fits n) :
    n.buf.phys ≤ n.dmaDst ∧ n.dmaDst + n.dmaSize ≤ n.buf.phys + n.buf.size ∧
      n.dmaOffset < 2 * DMA_ALIGNMENT ∧
      n.buf.phys + n.dmaOffset = n.dmaDst + (n.skb.data - n.skbDataAligned) ∧
      (n.skb.data - n.skbDataAligned) + n.size ≤ n.dmaSize := by
  have hr := h.room
  obtain ⟨hd,hd'⟩ := align_bounds n.buf.phys
  obtain ⟨hs,hs'⟩ := align_bounds (n.skb.bytes.length +
    (n.skb.data - n.skb.data / DMA_ALIGNMENT * DMA_ALIGNMENT))
  rw [h.made]
  simp only [schedNode,SchedNode.size] at *
  unfold DMA_ALIGNMENT at *
  omega

/-- What the receiver finds where the message says the packet is. -/
def found (n : SchedNode β) (m : Memory β) : List β := received m n.buf n

theorem Fits.found_dma (h : Fits n) : found n (n.dma around m) = n.skb.bytes := by
  obtain ⟨_,_,_,hp,he⟩ := h.place
  apply ext_getElem
  · simp [found,received,SchedNode.size]
  intro i hi hi'
  simp only [found,received,getElem_map,getElem_range]
  have ha : n.buf.phys + n.dmaOffset + i = n.dmaDst + ((n.skb.data - n.skbDataAligned) + i) := by omega
  have hin : (n.skb.data - n.skbDataAligned) + i < n.dmaSize := (Nat.add_lt_add_left hi' _).trans_le he
  rw [ha,SchedNode.dma,blit_at _ _ _ hin,if_neg (by omega),Nat.add_sub_cancel_left]
  simp [hi']

theorem Fits.found_other (h : Fits n) (hk : Fits k) (ha : k.buf.Apart n.buf) :
    found k (n.dma around m) = found k m := by
  obtain ⟨hl,hh,-,-,-⟩ := h.place
  obtain ⟨klow,khigh,-,kplace,kend⟩ := hk.place
  apply map_congr_left
  intro i hi
  have hil : i < k.size := mem_range.mp hi
  unfold SchedNode.dma
  apply blit_outside
  rcases ha with hb | hbh <;> omega

/-- The packets that are on their way, in their order. -/
def Link.underway (l : Link β) : List (Packet β) :=
  (l.landed ++ l.flying).map SchedNode.skb ++ l.waiting

/-- Both ends agree on the order of the buffers, what has landed is what was sent, and every packet
is somewhere. -/
structure InStep (l : Link β) : Prop where
  lists : l.posted = (l.landed ++ l.flying).map SchedNode.buf ++ l.known ++ l.announced
  apart : l.posted.Pairwise Buf.Apart
  room : l.posted.length ≤ VNET_MAX_SKBS
  credits : l.credits + l.waiting.length = l.known.length
  fits : ∀ n ∈ l.landed ++ l.flying ++ l.complete,Fits n
  intact : ∀ n ∈ l.landed,found n l.mem = n.skb.bytes ∧ n ∈ l.complete
  order : (l.delivered ++ l.underway.map tag).Sublist (l.accepted.map tag)
  fates : (↑(l.accepted.map tag) : Multiset (Nat × List β)) =
    ↑l.delivered + ↑(l.underway.map tag) + ↑(l.lostTx.map tag) + ↑(l.lostRx.map tag)
  finished : ∀ q ∈ l.delivered,∃ n ∈ l.complete,tag n.skb = q

theorem InStep.start (ha : posted.Pairwise Buf.Apart) (hr : posted.length ≤ VNET_MAX_SKBS) :
    InStep ⟨posted,[],[],[],posted,[],0,mem,[],[],[],[],[]⟩ where
  lists := rfl
  apart := ha
  room := hr
  credits := rfl
  fits := by simp
  intact := by simp
  order := .refl _
  fates := rfl
  finished := by simp

section
variable (h : InStep l)
include h

theorem InStep.accept (hcr : l.credits ≠ 0) (p : Packet β) :
    InStep { l with
      waiting := l.waiting ++ [p],credits := l.credits - 1,accepted := l.accepted ++ [p] } :=
  { h with
    credits := by
      have hc := h.credits
      simp only [length_append,length_singleton]
      omega
    order := by
      have ha := h.order.append (List.Sublist.refl [tag p])
      simpa [Link.underway,append_assoc] using ha
    fates := by
      have hf := h.fates
      simp only [Link.underway,map_append,← Multiset.coe_add] at hf ⊢
      rw [hf]
      ac_rfl }

theorem InStep.fail (hw : l.waiting = p :: rest) :
    InStep { l with waiting := rest,credits := l.credits + 1,lostTx := l.lostTx ++ [p] } :=
  { h with
    credits := by
      have hc := h.credits
      rw [hw,length_cons] at hc
      simp only
      omega
    order := by
      have ho := h.order
      simp only [Link.underway,hw,map_append,map_cons] at ho ⊢
      refine List.Sublist.trans ?_ ho
      exact (((sublist_cons_self (tag p) (rest.map tag)).append_left _).append_left _)
    fates := by
      have hf := h.fates
      simp only [Link.underway,hw,map_append,map_cons,map_nil,← Multiset.coe_add,
        ← Multiset.cons_coe,← Multiset.singleton_add,Multiset.coe_nil,add_zero] at hf ⊢
      rw [hf]
      ac_rfl }

theorem InStep.submit (hw : l.waiting = p :: rest) (hk : l.known = d :: known)
    (hft : p.bytes.length + 3 * DMA_ALIGNMENT ≤ d.size) :
    InStep { l with waiting := rest,known := known,flying := l.flying ++ [schedNode p d] } :=
  { h with
    lists := by
      have hl := h.lists
      simpa [hk,schedNode] using hl
    credits := by
      have hc := h.credits
      rw [hw,hk,length_cons,length_cons] at hc
      simp only
      omega
    fits := by
      intro n hn
      have hcs : n = schedNode p d ∨ n ∈ l.landed ++ l.flying ++ l.complete := by
        simp only [mem_append,mem_singleton] at hn ⊢
        tauto
      rcases hcs with rfl | hol
      · exact .of_sched hft
      · exact h.fits n hol
    order := by
      have ho := h.order
      simpa [Link.underway,hw,schedNode] using ho
    fates := by
      have hf := h.fates
      simpa [Link.underway,hw,schedNode] using hf }

theorem InStep.land (hfl : l.flying = n :: rest) (around : Nat → β) :
    InStep { l with
      flying := rest,landed := l.landed ++ [n],mem := n.dma around l.mem,complete :=
        l.complete ++ [n] } := by
  have hn : Fits n := h.fits n (by simp [hfl])
  exact { h with
    lists := by
      have hl := h.lists
      simpa [hfl] using hl
    fits := by
      intro k hk
      apply h.fits k
      simp only [hfl,mem_append,mem_cons,not_mem_nil,or_false] at hk ⊢
      tauto
    intact := by
      intro k hk
      rcases mem_append.mp hk with hol | hnw
      · obtain ⟨hd,hc⟩ := h.intact k hol
        refine ⟨?_,mem_append_left _ hc⟩
        have hk' : Fits k := h.fits k (by simp [hol])
        have ha := h.apart
        rw [h.lists,hfl,map_append,append_assoc,append_assoc] at ha
        have hs := (pairwise_append.mp ha).2.2 k.buf (mem_map_of_mem hol) n.buf (by simp)
        exact (hn.found_other hk' hs).trans hd
      · rw [mem_singleton.mp hnw]
        exact ⟨hn.found_dma,mem_append_right _ (mem_singleton_self n)⟩
    order := by
      have ho := h.order
      simpa [Link.underway,hfl] using ho
    fates := by
      have hf := h.fates
      simpa [Link.underway,hfl] using hf
    finished := by
      intro q hq
      obtain ⟨k,hk,ht⟩ := h.finished q hq
      exact ⟨k,mem_append_left _ hk,ht⟩ }

theorem InStep.learn (ha : l.announced = b :: rest) :
    InStep { l with announced := rest,known := l.known ++ [b],credits := l.credits + 1 } :=
  { h with
    lists := by
      have hl := h.lists
      simpa [ha] using hl
    credits := by
      have hc := h.credits
      simp only [length_append,length_singleton]
      omega }

theorem InStep.first (hl : l.landed = n :: rest) :
    ∃ posted,l.posted = n.buf :: posted ∧
      posted = (rest ++ l.flying).map SchedNode.buf ++ l.known ++ l.announced := by
  refine ⟨_,?_,rfl⟩
  rw [h.lists,hl]
  simp

theorem InStep.announce (hr : l.posted.length < VNET_MAX_SKBS) (hb : ∀ a ∈ l.posted,a.Apart b) :
    InStep { l with posted := l.posted ++ [b],announced := l.announced ++ [b] } :=
  { h with
    lists := by
      have hl := h.lists
      simp [hl]
    apart := by
      rw [pairwise_append]
      refine ⟨h.apart,pairwise_singleton _ _,?_⟩
      intro a ha c hc
      rw [mem_singleton.mp hc]
      exact hb a ha
    room := by
      simp only [length_append,length_singleton]
      exact hr }

theorem InStep.behind (hl : l.landed = n :: rest) (hp : l.posted = n.buf :: posted) :
    posted = (rest ++ l.flying).map SchedNode.buf ++ l.known ++ l.announced ∧
      posted.Pairwise Buf.Apart ∧ posted.length < VNET_MAX_SKBS ∧ ∀ a ∈ posted,a.Apart n.buf := by
  obtain ⟨posted',heq,hrs⟩ := h.first hl
  have hap := h.apart
  have hr := h.room
  rw [hp] at heq hap hr
  cases heq
  obtain ⟨hf,hap⟩ := pairwise_cons.mp hap
  exact ⟨hrs,hap,hr,fun a ha => (hf a ha).symm⟩

section
variable {rest} (hln : l.landed = n :: rest) {posted} (hp : l.posted = n.buf :: posted)
include hln hp

/-- The first packet that landed is handed on or is lost. -/
theorem InStep.leave (hx : delivered = l.delivered ++ [tag n.skb] ∧ lostRx = l.lostRx ∨
      delivered = l.delivered ∧ lostRx = l.lostRx ++ [n.skb]) :
    InStep { l with posted := posted,landed := rest,delivered := delivered,lostRx := lostRx } := by
  obtain ⟨hl,ha,hr,-⟩ := h.behind hln hp
  exact { h with
    lists := hl
    apart := ha
    room := hr.le
    fits := fun k hk => h.fits k (by simp only [hln,mem_append,mem_cons] at hk ⊢; tauto)
    intact := fun k hk => h.intact k (by rw [hln]; exact .tail _ hk)
    order := by
      have ho := h.order
      rcases hx with ⟨rfl,rfl⟩ | ⟨rfl,rfl⟩
      · simpa [Link.underway,hln] using ho
      · simp only [Link.underway,hln,cons_append,map_cons] at ho ⊢
        exact ((sublist_cons_self _ _).append_left _).trans ho
    fates := by
      have hf := h.fates
      rcases hx with ⟨rfl,rfl⟩ | ⟨rfl,rfl⟩
      all_goals
        simp only [Link.underway,hln,cons_append,map_cons,map_append,map_nil,
          ← Multiset.coe_add,← Multiset.cons_coe,← Multiset.singleton_add,Multiset.coe_nil,
          add_zero] at hf ⊢
        rw [hf]
        ac_rfl
    finished := by
      intro q hq
      rcases hx with ⟨rfl,rfl⟩ | ⟨rfl,rfl⟩
      · rcases mem_append.mp hq with hol | hn
        · exact h.finished q hol
        · exact ⟨n,(h.intact n (by simp [hln])).2,(mem_singleton.mp hn).symm⟩
      · exact h.finished q hq }

theorem InStep.deliver :
    InStep { l with
      posted := posted,landed := rest,delivered := l.delivered ++ [(n.skb.id,found n l.mem)] } := by
  rw [(h.intact n (by simp [hln])).1]
  exact h.leave hln hp (.inl ⟨rfl,rfl⟩)

theorem InStep.drop :
    InStep { l with posted := posted,landed := rest,lostRx := l.lostRx ++ [n.skb] } :=
  h.leave hln hp (.inr ⟨rfl,rfl⟩)

end

end

end Mpss.Proofs.VnetLink
