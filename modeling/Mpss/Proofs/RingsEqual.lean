import Mpss.Micscif.Rb
import Mpss.Proofs.RingFifo

namespace Mpss.Proofs.RingsEqual
open Micscif.Rb RingFifo
open Scif.Ring hiding Call Reply

/-- Where the offsets of a caching ring stand over all laps: what the writer knows to be read, what
is read, the cached write offset, the committed one and the writer's own. -/
structure At (k : Nat) (s : Pair MicscifRb) (a r c w p : Nat) : Prop where
  order : a ≤ r ∧ r ≤ c ∧ c ≤ w ∧ w ≤ p ∧ p < a + 2 ^ k
  readPtr : s.shared.readPtr.toNat = a % 2 ^ k
  reader : s.consumer.currentReadOffset.toNat = r % 2 ^ k
  cached : s.consumer.currentWriteOffset.toNat = c % 2 ^ k
  writePtr : s.shared.writePtr.toNat = w % 2 ^ k
  writer : s.producer.currentWriteOffset.toNat = p % 2 ^ k

/-- The same shared state and own offsets; the cached write offset lies between what is read and
what is committed. -/
structure Locked (k base : Nat) (s : Pair MicscifRb) (t : Pair ScifRb) : Prop where
  shared : s.shared = t.shared
  writer : s.producer.currentWriteOffset = t.producer.currentWriteOffset
  reader : s.consumer.currentReadOffset = t.consumer.currentReadOffset
  producer : Shaped k base s.producer.toScifRb ∧ Shaped k base t.producer
  consumer : Shaped k base s.consumer.toScifRb ∧ Shaped k base t.consumer
  standing : ∃ a r c w p,At k s a r c w p

/-- The same outcome for the caller. The cached count is only as good as the size asked for. -/
inductive Agree : Call × Reply → Call × Reply → Prop
  | same (c : Call) (r : Reply) : Agree (c,r) (c,r)
  | counted (size n n' : UInt32) (le : n ≤ n') (enough : size ≤ n ↔ size ≤ n') :
      Agree (.count size,.counted n) (.count size,.counted n')

theorem Shaped.size_eq (h : Shaped k base rb) (h' : Shaped k base rb') : rb.size = rb'.size := by
  apply UInt32.toNat_inj.mp
  rw [h.laps,h'.laps]

theorem Locked.space (h : Locked k base s t) :
    (micscifRbSpace s.producer s.shared).1.toUInt32 = scifRbSpace t.producer t.shared := by
  simp only [micscifRbSpace,UInt32.toUInt32_toInt32,scifRbSpace,scifRbRingSpace]
  rw [h.writer,h.shared,Shaped.size_eq h.producer.1 h.producer.2]

theorem At.counts (h : At k s a r c w p) (hk : k < 32) (hc : Shaped k base s.consumer.toScifRb) :
    (circCnt s.consumer.currentWriteOffset s.consumer.currentReadOffset
      s.consumer.size).toNat = c - r ∧
      (circCnt s.shared.writePtr s.consumer.currentReadOffset s.consumer.size).toNat = w - r := by
  obtain ⟨har,hrc,hcw,hwp,hpa⟩ := h.order
  have hr : s.consumer.currentReadOffset.toNat ≡ r [MOD 2 ^ k] := by
    rw [h.reader]
    exact Nat.mod_modEq _ _
  exact ⟨circCnt_toNat hc.laps hk h.cached hr hrc (by omega),
    circCnt_toNat hc.laps hk h.writePtr hr (by omega) (by omega)⟩

section
variable (h : Locked k base s t) (hk : k < 32)
include h hk

theorem Locked.count :
    (micscifRbCount s.consumer s.shared size).1 ≤ scifRbCount t.consumer t.shared ∧
      (size ≤ (micscifRbCount s.consumer s.shared size).1 ↔ size ≤ scifRbCount t.consumer t.shared) ∧
      Locked k base { s with consumer := (micscifRbCount s.consumer s.shared size).2 } t ∧
      (size ≤ (micscifRbCount s.consumer s.shared size).1 → ∃ a r c w p,
        At k { s with consumer := (micscifRbCount s.consumer s.shared size).2 } a r c w p ∧
        r + size.toNat ≤ c) := by
  obtain ⟨a,r,c,w,p,hat⟩ := h.standing
  obtain ⟨hc,hf⟩ := hat.counts hk h.consumer.1
  have hp : scifRbCount t.consumer t.shared =
      circCnt s.shared.writePtr s.consumer.currentReadOffset s.consumer.size := by
    rw [scifRbCount,scifRbRingCnt,h.shared,h.reader,Shaped.size_eq h.consumer.1 h.consumer.2]
  have ho := hat.order
  simp only [micscifRbCount,refresh]
  rw [hp]
  split_ifs with hlt
  · have ha' : At k { s with consumer := { s.consumer with
        oldCurrentWriteOffset := s.consumer.currentWriteOffset
        currentWriteOffset := s.shared.writePtr } } a r w w p :=
      ⟨by omega,hat.readPtr,hat.reader,hat.writePtr,hat.writePtr,hat.writer⟩
    refine ⟨UInt32.le_refl _,Iff.rfl,⟨h.shared,h.writer,h.reader,h.producer,
      ⟨⟨h.consumer.1.at_base,h.consumer.1.laps⟩,h.consumer.2⟩,_,_,_,_,_,ha'⟩,?_⟩
    intro hle
    have := UInt32.le_iff_toNat_le.mp hle
    dsimp only at this
    exact ⟨_,_,_,_,_,ha',by omega⟩
  · have hle : size ≤ circCnt s.consumer.currentWriteOffset s.consumer.currentReadOffset
      s.consumer.size :=
      UInt32.not_lt.mp hlt
    have hs := UInt32.le_iff_toNat_le.mp hle
    refine ⟨?_,?_,h,fun _ => ⟨_,_,_,_,_,hat,by omega⟩⟩
    · rw [UInt32.le_iff_toNat_le]
      omega
    · refine iff_of_true hle ?_
      rw [UInt32.le_iff_toNat_le]
      omega

theorem Locked.write :
    (cachingStep s (.write msg size)).1 = (plainStep t (.write msg size)).1 ∧
      Locked k base (cachingStep s (.write msg size)).2 (plainStep t (.write msg size)).2 := by
  obtain ⟨a,r,c,w,p,hat⟩ := h.standing
  have hs := h.space
  have hsz : s.producer.size = t.producer.size := Shaped.size_eq h.producer.1 h.producer.2
  simp only [cachingStep,plainStep,micscifRbWrite,scifRbWrite]
  rw [hs]
  by_cases hf : scifRbSpace t.producer t.shared < size
  · rw [if_pos hf,if_pos hf]
    exact ⟨rfl,h.shared,h.writer,h.reader,⟨⟨h.producer.1.at_base,h.producer.1.laps⟩,h.producer.2⟩,
      h.consumer,_,_,_,_,_,{ hat with }⟩
  rw [if_neg hf,if_neg hf]
  obtain ⟨har,hrc,hcw,hwp,hpa⟩ := hat.order
  have hr : size.toNat ≤ 2 ^ k - 1 - (p - a) := by
    have hle := UInt32.le_iff_toNat_le.mp (UInt32.not_lt.mp hf)
    rw [← hs] at hle
    simp only [micscifRbSpace,UInt32.toUInt32_toInt32] at hle
    rw [circSpace_toNat h.producer.1.laps hk hat.writer hat.readPtr (by omega) (by omega)] at hle
    exact hle
  refine ⟨rfl,?_,?_,h.reader,⟨⟨h.producer.1.at_base,h.producer.1.laps⟩,
    ⟨h.producer.2.at_base,h.producer.2.laps⟩⟩,h.consumer,a,r,c,w,p + size.toNat,?_⟩
  · simp [putMessage,micscifRbSpace,memcpyTorb,h.shared,h.writer,hsz,h.producer.1.at_base,
      h.producer.2.at_base]
  · simp [putMessage,micscifRbSpace,h.writer,hsz]
  · refine { hat with order := by omega,writer := ?_ }
    exact advance_toNat h.producer.1.laps hk hat.writer size

theorem Locked.getNext :
    (cachingStep s (.getNext msg size)).1 = (plainStep t (.getNext msg size)).1 ∧
      Locked k base (cachingStep s (.getNext msg size)).2 (plainStep t (.getNext msg size)).2 := by
  obtain ⟨_,he,hl,hkn⟩ := h.count hk
  simp only [cachingStep,plainStep,micscifRbGetNext,micscifRbGet,scifRbGetNext,scifRbGet]
  generalize micscifRbCount s.consumer s.shared size = m at he hl hkn ⊢
  by_cases hle : size ≤ m.1
  · rw [if_pos hle,if_pos (he.mp hle)]
    obtain ⟨a,r,c,w,p,hat,hrc⟩ := hkn hle
    have hs : m.2.size = t.consumer.size := Shaped.size_eq hl.consumer.1 hl.consumer.2
    have hr : m.2.currentReadOffset = t.consumer.currentReadOffset := hl.reader
    have hb : m.2.rbBase = t.consumer.rbBase := by
      rw [hl.consumer.2.at_base]
      exact hl.consumer.1.at_base
    refine ⟨?_,h.shared,h.writer,?_,h.producer,⟨⟨hl.consumer.1.at_base,hl.consumer.1.laps⟩,
      ⟨h.consumer.2.at_base,h.consumer.2.laps⟩⟩,a,r + size.toNat,c,w,p,?_⟩
    · simp [takeMessage,memcpyFromrb,UInt32.toUInt32_toInt32,hr,hb,hs,h.shared]
    · simp [takeMessage,hr,hs]
    · obtain ⟨har,hr',hcw,hwp,hpa⟩ := hat.order
      refine { hat with order := by omega,reader := ?_ }
      exact advance_toNat hl.consumer.1.laps hk hat.reader size
  · rw [if_neg hle,if_neg (he.not.mp hle)]
    exact ⟨rfl,hl⟩

theorem Locked.step :
    Agree (c,(cachingStep s c).1) (c,(plainStep t c).1) ∧
      Locked k base (cachingStep s c).2 (plainStep t c).2 := by
  cases c with
  | write msg size =>
    obtain ⟨hr,hl⟩ := h.write hk
    exact ⟨hr ▸ .same _ _,hl⟩
  | commit =>
    obtain ⟨a,r,c,w,p,hat⟩ := h.standing
    have ho := hat.order
    refine ⟨.same _ _,?_,h.writer,h.reader,h.producer,h.consumer,a,r,c,p,p,
      ⟨by omega,hat.readPtr,hat.reader,hat.cached,hat.writer,hat.writer⟩⟩
    simp [cachingStep,plainStep,micscifRbCommit,scifRbCommit,h.shared,h.writer]
  | space =>
    obtain ⟨a,r,c,w,p,hat⟩ := h.standing
    have hs := h.space
    simp only [cachingStep,plainStep]
    rw [hs]
    exact ⟨.same _ _,h.shared,h.writer,h.reader,
      ⟨⟨h.producer.1.at_base,h.producer.1.laps⟩,h.producer.2⟩,h.consumer,_,_,_,_,_,
      { hat with }⟩
  | getNext msg size =>
    obtain ⟨hr,hl⟩ := h.getNext hk
    exact ⟨hr ▸ .same _ _,hl⟩
  | updateReadPtr =>
    obtain ⟨a,r,c,w,p,hat⟩ := h.standing
    have ho := hat.order
    refine ⟨.same _ _,?_,h.writer,h.reader,h.producer,h.consumer,r,r,c,w,p,
      ⟨by omega,hat.reader,hat.reader,hat.cached,hat.writePtr,hat.writer⟩⟩
    simp [cachingStep,plainStep,micscifRbUpdateReadPtr,scifRbUpdateReadPtr,h.shared,h.reader]
  | count size =>
    obtain ⟨hle,he,hl,_⟩ := h.count hk
    exact ⟨.counted size _ _ hle he,hl⟩

theorem Locked.run : List.Forall₂ Agree (replies cachingStep s cs) (replies plainStep t cs) := by
  induction cs generalizing s t with
  | nil => exact .nil
  | cons c cs ih =>
    obtain ⟨ha,hl⟩ := h.step hk
    exact .cons ha (ih hl)

end

theorem locked_init {k : UInt8} (hk : k.toNat < 32)
    (he : sh.readPtr = sh.writePtr) (ho : sh.readPtr.toNat < 2 ^ k.toNat)
    (hp : micscifRbInit rb sh base (1 <<< k.toUInt32) = some producer)
    (hc : micscifRbInit rb' sh base (1 <<< k.toUInt32) = some consumer) :
    Locked k.toNat base ⟨producer,consumer,sh⟩ ⟨scifRbInit sh base k,scifRbInit sh base k,sh⟩ := by
  have hs := size_toNat hk
  simp only [micscifRbInit] at hp hc
  split at hp
  · cases hp
  split at hc
  · cases hc
  cases hp
  cases hc
  have hof : sh.readPtr.toNat = sh.readPtr.toNat % 2 ^ k.toNat := (Nat.mod_eq_of_lt ho).symm
  have ho' : sh.writePtr.toNat = sh.readPtr.toNat % 2 ^ k.toNat := he ▸ hof
  exact ⟨rfl,rfl,rfl,⟨⟨rfl,hs⟩,⟨rfl,hs⟩⟩,⟨⟨rfl,hs⟩,⟨rfl,hs⟩⟩,
    sh.readPtr.toNat,sh.readPtr.toNat,sh.readPtr.toNat,sh.readPtr.toNat,sh.readPtr.toNat,
    ⟨by omega,hof,hof,ho',ho',ho'⟩⟩

/-- In the interleaving `cs` the calls of the caching ring and of the plain ring have the same
outcome. -/
def Equivalent (rb rb' : MicscifRb) (sh : Shared) (base : Nat) (k : UInt8) (cs : List Call) : Prop :=
  ∃ producer consumer,micscifRbInit rb sh base (1 <<< k.toUInt32) = some producer ∧
    micscifRbInit rb' sh base (1 <<< k.toUInt32) = some consumer ∧
    List.Forall₂ Agree (replies cachingStep ⟨producer,consumer,sh⟩ cs)
      (replies plainStep ⟨scifRbInit sh base k,scifRbInit sh base k,sh⟩ cs)

theorem rings_equivalent (rb rb' : MicscifRb) (sh : Shared) (base : Nat) (k : UInt8) (cs : List Call)
    (hk : k.toNat < 32) (he : sh.readPtr = sh.writePtr) (ho : sh.readPtr.toNat < 2 ^ k.toNat) :
    Equivalent rb rb' sh base k cs := by
  have hpw : (1 : UInt32) <<< k.toUInt32 &&& ((1 : UInt32) <<< k.toUInt32 - 1) = 0 := by
    apply UInt32.toNat_inj.mp
    rw [mask_toNat (size_toNat hk),size_toNat hk,Nat.mod_self]
    rfl
  have hi : ∀ r : MicscifRb,∃ c,micscifRbInit r sh base (1 <<< k.toUInt32) = some c := by
    intro r
    rw [micscifRbInit,if_neg (not_not.mpr hpw)]
    exact ⟨_,rfl⟩
  obtain ⟨producer,hp⟩ := hi rb
  obtain ⟨consumer,hc⟩ := hi rb'
  exact ⟨producer,consumer,hp,hc,(locked_init hk he ho hp hc).run hk⟩

theorem rings_equivalent_small :
    Equivalent ⟨⟨0,0,0,0⟩,0,0⟩ ⟨⟨0,0,0,0⟩,0,0⟩ ⟨fun _ => 0,5,5⟩ 64 3
      [.write (fun _ => 1) 4,.count 2,.commit,.getNext (fun _ => 0) 4] :=
  rings_equivalent _ _ _ _ _ _ (by decide) rfl (by decide)

end Mpss.Proofs.RingsEqual
