import Mathlib.Data.Nat.ModEq
import Mpss.Library.Fifo
import Mpss.Scif.Ring

namespace Mpss.Proofs.RingFifo
open Library.Bytes Library.Fifo Scif.Ring List Function

variable {s : System} {rb : ScifRb}

theorem wrap_sub_mod (hd : n ∣ M) (hb : b ≤ M) (ht : t < n) (h : a ≡ t + b [MOD n]) :
    (M - b + a) % n = t := by
  have hs : M - b + a + b ≡ t + b [MOD n] := by
    have he : M - b + a + b = a + M := by omega
    rw [he]
    exact ((Nat.modEq_zero_iff_dvd.mpr hd).add_left a).trans h
  exact Nat.mod_eq_of_modEq (Nat.ModEq.add_right_cancel' b hs) ht

theorem lap_dvd (hk : k < 32) : 2 ^ k ∣ 2 ^ 32 := Nat.pow_dvd_pow 2 (by omega)

theorem size_toNat {k : UInt8} (hk : k.toNat < 32) :
    ((1 : UInt32) <<< k.toUInt32).toNat = 2 ^ k.toNat := by
  have hlt : 2 ^ k.toNat < 2 ^ 32 := Nat.pow_lt_pow_right (by omega) hk
  have hm : k.toNat % 32 = k.toNat := Nat.mod_eq_of_lt hk
  simpa [UInt32.toNat_shiftLeft,hm,Nat.shiftLeft_eq] using hlt

theorem mask_toNat {size : UInt32} (hs : size.toNat = 2 ^ k) :
    (x &&& (size - 1)).toNat = x.toNat % 2 ^ k := by
  have hp : 0 < 2 ^ k := Nat.two_pow_pos k
  have ho : (1 : UInt32) ≤ size := by
    rw [UInt32.le_iff_toNat_le,hs]
    exact hp
  rw [UInt32.toNat_and,UInt32.toNat_sub_of_le _ _ ho,hs]
  exact Nat.and_two_pow_sub_one_eq_mod _ _

theorem advance_toNat (hs : size.toNat = 2 ^ k) (hk : k < 32)
    (ho : off.toNat = p % 2 ^ k) (n : UInt32) :
    ((off + n) &&& (size - 1)).toNat = (p + n.toNat) % 2 ^ k := by
  rw [mask_toNat hs,UInt32.toNat_add,Nat.mod_mod_of_dvd _ (lap_dvd hk),ho,Nat.mod_add_mod]

theorem circCnt_toNat {size head tail : UInt32} (hs : size.toNat = 2 ^ k) (hk : k < 32)
    (hh : head.toNat = h % 2 ^ k) (ht : tail.toNat ≡ t [MOD 2 ^ k]) (hle : t ≤ h)
    (hlt : h - t < 2 ^ k) : (circCnt head tail size).toNat = h - t := by
  have htl : tail.toNat ≤ 2 ^ 32 := Nat.le_of_lt tail.toNat_lt
  unfold circCnt
  rw [mask_toNat hs,UInt32.toNat_sub,Nat.mod_mod_of_dvd _ (lap_dvd hk)]
  apply wrap_sub_mod (lap_dvd hk) htl hlt
  have hm : head.toNat ≡ h [MOD 2 ^ k] := by
    rw [hh]
    exact Nat.mod_modEq _ _
  have hsm : h - t + tail.toNat ≡ h - t + t [MOD 2 ^ k] := ht.add_left _
  rw [Nat.sub_add_cancel hle] at hsm
  exact hm.trans hsm.symm

theorem circSpace_toNat {size head tail : UInt32} (hs : size.toNat = 2 ^ k) (hk : k < 32)
    (hh : head.toNat = h % 2 ^ k) (ht : tail.toNat = t % 2 ^ k) (hle : t ≤ h) (hlt : h - t < 2 ^ k) :
    (circSpace head tail size).toNat = 2 ^ k - 1 - (h - t) := by
  have hn : (head + 1).toNat ≡ h + 1 [MOD 2 ^ k] := by
    have h1 : (head + 1).toNat ≡ h % 2 ^ k + 1 [MOD 2 ^ k] := by
      rw [UInt32.toNat_add,hh]
      exact Nat.mod_mod_of_dvd _ (lap_dvd hk)
    exact h1.trans ((Nat.mod_modEq _ _).add_right 1)
  have hc := circCnt_toNat (h := t + 2 ^ k) (t := h + 1) hs hk
    (by rw [Nat.add_mod_right]; exact ht) hn (by omega) (by omega)
  rw [circSpace,hc]
  omega

def bytes (msg : Nat → UInt8) (n : UInt32) : List UInt8 := (List.range n.toNat).map msg

@[simp] theorem bytes_length (msg : Nat → UInt8) (n : UInt32) :
    (bytes msg n).length = n.toNat := by simp [bytes]

@[simp] theorem bytes_zero : bytes msg 0 = [] := rfl

/-- What a call and its reply add to the observed history. -/
def observe (h : History UInt8) : Call × Reply → History UInt8
  | (.write msg size,.written ret) => if ret = 0 then h.record (.put (bytes msg size)) else h
  | (.commit,_) => h.record .committed
  | (.getNext _ _,.got ret msg) => h.record (.taken (bytes msg ret))
  | (.updateReadPtr,_) => h.record .released
  | _ => h

def observed (t : List (Call × Reply)) : History UInt8 := t.foldl observe History.empty

/-- The cells a call stores to: those of a message that found room. -/
def stores (s : System) : Call → List Nat
  | .write _ size =>
    if scifRbSpace s.producer s.shared < size then []
    else torbCells s.producer (s.producer.rbBase + s.producer.currentWriteOffset.toNat) size
  | _ => []

/-- Every cell stored to by a run, one for each written byte and in their order. -/
def placed (s : System) : List Call → List Nat
  | [] => []
  | c :: cs => stores s c ++ placed (s.step c).2 cs

theorem slot_low {p i n : Nat} (h : p % n + i < n) : (p + i) % n = p % n + i := by
  rw [← Nat.mod_add_mod,Nat.mod_eq_of_lt h]

theorem slot_high {p i n : Nat} (hl : n ≤ p % n + i) (hh : p % n + i < n + n) :
    (p + i) % n = p % n + i - n := by
  rw [← Nat.mod_add_mod,Nat.mod_eq_sub_mod hl,Nat.mod_eq_of_lt (by omega)]

/-- A ring whose structure describes an area of `2 ^ k` bytes at `base`. -/
structure Shaped (k base : Nat) (rb : ScifRb) : Prop where
  at_base : rb.rbBase = base
  laps : rb.size.toNat = 2 ^ k

theorem torb_outside (ha : a ∉ torbCells rb header n) : memcpyTorb rb m header msg n a = m a := by
  unfold torbCells at ha
  unfold memcpyTorb
  split_ifs at ha with hw
  · simp only [mem_append,mem_map,mem_range,not_or,not_exists,not_and] at ha
    rw [if_pos hw,blit_outside,blit_outside]
    · have := ha.1 (a - header)
      omega
    · have := ha.2 (a - rb.rbBase)
      omega
  · simp only [mem_map,mem_range,not_exists,not_and] at ha
    rw [if_neg hw,blit_outside]
    have := ha (a - header)
    omega

section
variable (h : Shaped k base rb) (hk : k < 32)
include h hk

theorem Shaped.pieces (p : Nat) (hw : base + p % 2 ^ k + n.toNat ≥ base + 2 ^ k) :
    (UInt32.ofNat (rb.rbBase + rb.size.toNat - (base + p % 2 ^ k))).toNat = 2 ^ k - p % 2 ^ k ∧
    (n - UInt32.ofNat (rb.rbBase + rb.size.toNat - (base + p % 2 ^ k))).toNat =
      n.toNat - (2 ^ k - p % 2 ^ k) := by
  have hlt : 2 ^ k < 2 ^ 32 := Nat.pow_lt_pow_right (by omega) hk
  have h1 : (UInt32.ofNat (rb.rbBase + rb.size.toNat - (base + p % 2 ^ k))).toNat =
      2 ^ k - p % 2 ^ k := by
    rw [h.at_base,h.laps,UInt32.toNat_ofNat_of_lt' (by change _ < 2 ^ 32; omega)]
    omega
  refine ⟨h1,?_⟩
  rw [UInt32.toNat_sub_of_le _ _ (by rw [UInt32.le_iff_toNat_le,h1]; omega),h1]

theorem Shaped.torb_cells (p : Nat) (hn : n.toNat < 2 ^ k) :
    torbCells rb (base + p % 2 ^ k) n =
      (List.range n.toNat).map (fun i => base + (p + i) % 2 ^ k) := by
  unfold torbCells
  split_ifs with hw
  · rw [h.at_base,h.laps] at hw
    obtain ⟨h1,h2⟩ := h.pieces hk p hw
    dsimp only
    rw [h1,h2,h.at_base]
    have hs : n.toNat = (2 ^ k - p % 2 ^ k) + (n.toNat - (2 ^ k - p % 2 ^ k)) := by omega
    conv => rhs; rw [hs]
    rw [range_add,map_append,map_map]
    congr 1
    · apply map_congr_left
      intro i hi
      rw [mem_range] at hi
      rw [slot_low (by omega)]
      omega
    · apply map_congr_left
      intro i hi
      rw [mem_range] at hi
      simp only [comp_apply]
      rw [slot_high (by omega) (by omega)]
      omega
  · rw [h.at_base,h.laps] at hw
    apply map_congr_left
    intro i hi
    rw [mem_range] at hi
    rw [slot_low (by omega)]
    omega

theorem Shaped.torb_at (p : Nat) (hn : n.toNat < 2 ^ k) (m : Memory UInt8) (hi : i < n.toNat) :
    memcpyTorb rb m (base + p % 2 ^ k) msg n (base + (p + i) % 2 ^ k) = msg i := by
  unfold memcpyTorb
  split_ifs with hw
  · rw [h.at_base,h.laps] at hw
    obtain ⟨h1,h2⟩ := h.pieces hk p hw
    dsimp only
    rw [h1,h2,h.at_base]
    by_cases hl : p % 2 ^ k + i < 2 ^ k
    · rw [slot_low hl,blit_outside _ _ (by omega),← Nat.add_assoc]
      exact blit_at _ _ _ (by omega)
    · rw [slot_high (by omega) (by omega),blit_at _ _ _ (by omega)]
      congr 1
      omega
  · rw [h.at_base,h.laps] at hw
    rw [slot_low (by omega),← Nat.add_assoc]
    exact blit_at _ _ _ hi

theorem Shaped.fromrb_at (hn : n.toNat < 2 ^ k) (hi : i < n.toNat) :
    memcpyFromrb rb m (base + p % 2 ^ k) msg n i = m (base + (p + i) % 2 ^ k) := by
  unfold memcpyFromrb
  split_ifs with hw
  · rw [h.at_base,h.laps] at hw
    obtain ⟨h1,h2⟩ := h.pieces hk p hw
    dsimp only
    rw [h1,h2,h.at_base]
    by_cases hl : p % 2 ^ k + i < 2 ^ k
    · rw [slot_low hl,blit_outside _ _ (by omega)]
      have := blit_at msg 0 (fun i => m (base + p % 2 ^ k + i)) (n := 2 ^ k - p % 2 ^ k)
        (i := i) (by omega)
      rw [Nat.zero_add] at this
      rw [this,Nat.add_assoc]
    · obtain ⟨j,rfl⟩ : ∃ j,i = (2 ^ k - p % 2 ^ k) + j := ⟨i - (2 ^ k - p % 2 ^ k),by omega⟩
      rw [blit_at _ _ _ (by omega),slot_high (by omega) (by omega)]
      congr 2
      omega
  · rw [h.at_base,h.laps] at hw
    have := blit_at msg 0 (fun i => m (base + p % 2 ^ k + i)) hi
    rw [Nat.zero_add] at this
    rw [this,slot_low (by omega),Nat.add_assoc]

end

/-- The ring and the history of its calls describe the same queue. -/
structure Linked (k base : Nat) (s : System) (h : History UInt8) (cells : List Nat) : Prop where
  ordered : h.Ordered (2 ^ k - 1)
  producer : Shaped k base s.producer
  consumer : Shaped k base s.consumer
  writeOffset : s.producer.currentWriteOffset.toNat = h.written.length % 2 ^ k
  writePtr : s.shared.writePtr.toNat = h.committed.length % 2 ^ k
  readOffset : s.consumer.currentReadOffset.toNat = h.returned.length % 2 ^ k
  readPtr : s.shared.readPtr.toNat = h.released % 2 ^ k
  slots : cells = (List.range h.written.length).map (fun p => base + p % 2 ^ k)
  stored : ∀ p b,h.released ≤ p → h.written[p]? = some b → s.shared.mem (base + p % 2 ^ k) = b

theorem Linked.space (hl : Linked k base s h cells)
    (hk : k < 32) : (scifRbSpace s.producer s.shared).toNat = 2 ^ k - 1 - h.held := by
  have hp : 0 < 2 ^ k := Nat.two_pow_pos k
  have hr := hl.ordered.room
  have hle : h.released ≤ h.written.length :=
    hl.ordered.published.trans (hl.ordered.returned_le.trans hl.ordered.committed_le)
  unfold scifRbSpace scifRbRingSpace
  rw [circSpace_toNat hl.producer.laps hk hl.writeOffset hl.readPtr hle (by omega),History.held]

theorem Linked.count (hl : Linked k base s h cells)
    (hk : k < 32) : (scifRbCount s.consumer s.shared).toNat = h.waiting.length := by
  have hp : 0 < 2 ^ k := Nat.two_pow_pos k
  have hr := hl.ordered.room
  have hpb := hl.ordered.published
  have hrt := hl.ordered.returned_le
  have hc := hl.ordered.committed_le
  have ht : s.consumer.currentReadOffset.toNat ≡ h.returned.length [MOD 2 ^ k] := by
    rw [hl.readOffset]
    exact Nat.mod_modEq _ _
  unfold scifRbCount scifRbRingCnt
  rw [circCnt_toNat hl.consumer.laps hk hl.writePtr ht hrt (by omega),History.waiting,length_drop]

def request : Call → Request UInt8
  | .write msg size => .put (bytes msg size)
  | .commit => .commit
  | .getNext _ size => .take size.toNat
  | .updateReadPtr => .release

theorem slots_fresh {h : History UInt8} (hn : n ≤ 2 ^ k - 1 - h.held) (hp : h.released ≤ p)
    (hw : p < h.written.length) (hi : i < n) :
    base + p % 2 ^ k ≠ base + (h.written.length + i) % 2 ^ k := by
  unfold History.held at hn
  have := slot_ne (n := 2 ^ k) (a := p) (b := h.written.length + i) (by omega) (by omega)
  omega

section
variable (hl : Linked k base s h cells)
include hl

theorem Linked.write (hk : k < 32)
    (hh : header = base + h.written.length % 2 ^ k) (msg : Nat → UInt8)
    (hn : n.toNat ≤ 2 ^ k - 1 - h.held) :
    Linked k base
      { s with
        producer := { s.producer with
          currentWriteOffset := (s.producer.currentWriteOffset + n) &&& (s.producer.size - 1) }
        shared := { s.shared with mem := memcpyTorb s.producer s.shared.mem header msg n } }
      (h.record (.put (bytes msg n))) (cells ++ torbCells s.producer header n) := by
  subst hh
  have hps : 0 < 2 ^ k := Nat.two_pow_pos k
  have hlp : n.toNat < 2 ^ k := by omega
  have hc := hl.producer.torb_cells hk h.written.length hlp
  have ha : h.answer (2 ^ k - 1) (.put (bytes msg n)) = .put (bytes msg n) := by
    simp only [History.answer,bytes_length,hn,if_true]
  have ho := hl.ordered.step (.put (bytes msg n))
  rw [ha] at ho
  refine ⟨ho,⟨hl.producer.at_base,hl.producer.laps⟩,hl.consumer,?_,hl.writePtr,hl.readOffset,
    hl.readPtr,?_,?_⟩
  · rw [advance_toNat hl.producer.laps hk hl.writeOffset]
    simp [History.record]
  · rw [hc,hl.slots]
    simp [History.record,range_add,comp_def]
  · intro p b hp hb
    change memcpyTorb s.producer s.shared.mem _ msg n _ = b
    simp only [History.record] at hb hp
    by_cases hw : p < h.written.length
    · rw [List.getElem?_append_left hw] at hb
      rw [torb_outside,hl.stored p b hp hb]
      rw [hc]
      simp only [mem_map,mem_range,not_exists,not_and]
      intro i hi
      exact (slots_fresh hn hp hw hi).symm
    obtain ⟨i,rfl⟩ : ∃ i,p = h.written.length + i := ⟨p - h.written.length,by omega⟩
    rw [List.getElem?_append_right (by omega),Nat.add_sub_cancel_left] at hb
    obtain ⟨hi,rfl⟩ := List.getElem?_eq_some_iff.mp hb
    rw [bytes_length] at hi
    rw [hl.producer.torb_at hk _ hlp _ hi]
    simp [bytes]

theorem Linked.waiting_slot (hb : h.waiting[i]? = some b) :
    s.shared.mem (base + (h.returned.length + i) % 2 ^ k) = b := by
  apply hl.stored
  · have := hl.ordered.published
    omega
  · rw [History.waiting,List.getElem?_drop] at hb
    obtain ⟨ys,hy⟩ := hl.ordered.visible
    rw [← hy,List.getElem?_append_left (List.getElem?_eq_some_iff.mp hb).1]
    exact hb

theorem Linked.fromrb_bytes (hk : k < 32) (hrb : Shaped k base rb)
    (hh : header = base + h.returned.length % 2 ^ k) (msg : Nat → UInt8)
    (hn : n.toNat ≤ h.waiting.length) :
    bytes (memcpyFromrb rb s.shared.mem header msg n) n = h.waiting.take n.toNat := by
  subst hh
  have hlp : n.toNat < 2 ^ k := by
    have hp : 0 < 2 ^ k := Nat.two_pow_pos k
    have hr := hl.ordered.room
    have hpb := hl.ordered.published
    have hc := hl.ordered.committed_le
    rw [History.waiting,length_drop] at hn
    omega
  apply ext_getElem
  · simp only [bytes_length,length_take]
    omega
  · intro i hi _
    rw [bytes_length] at hi
    simp only [bytes,getElem_map,getElem_range,getElem_take]
    rw [hrb.fromrb_at hk hlp hi]
    exact hl.waiting_slot (List.getElem?_eq_getElem (by omega))

theorem Linked.getNext (hk : k < 32) (hn : n.toNat ≤ h.waiting.length) :
    Linked k base
      { s with
        consumer := { s.consumer with
          currentReadOffset := (s.consumer.currentReadOffset + n) &&& (s.consumer.size - 1) } }
      (h.record (.taken (h.waiting.take n.toNat))) cells := by
  have ha : h.answer (2 ^ k - 1) (.take n.toNat) = .taken (h.waiting.take n.toNat) := by
    simp only [History.answer,hn,if_true]
  have ho := hl.ordered.step (.take n.toNat)
  rw [ha] at ho
  refine { hl with ordered := ho,consumer := ⟨hl.consumer.at_base,hl.consumer.laps⟩,readOffset := ?_ }
  rw [advance_toNat hl.consumer.laps hk hl.readOffset]
  simp [History.record,Nat.min_eq_left hn]

/-- One call of either side: the ring answers as the queue does, and stays linked to it. -/
theorem Linked.step (hk : k < 32) (c : Call) :
    Linked k base (s.step c).2 (observe h (c,(s.step c).1)) (cells ++ stores s c) ∧
    observe h (c,(s.step c).1) = h.record (h.answer (2 ^ k - 1) (request c)) := by
  have hsp := hl.space hk
  have hct := hl.count hk
  cases c with
  | write msg n =>
    by_cases hr : scifRbSpace s.producer s.shared < n
    · have hlt := UInt32.lt_iff_toNat_lt.mp hr
      have hne : ¬ n.toNat ≤ 2 ^ k - 1 - h.held := by omega
      simp only [System.step,scifRbWrite,hr,if_true,observe,stores,append_nil,
        request,History.answer,bytes_length,hne,if_false,History.record]
      exact ⟨hl,rfl⟩
    have hge : n.toNat ≤ 2 ^ k - 1 - h.held := by
      have := UInt32.lt_iff_toNat_lt.not.mp hr
      omega
    have hh : s.producer.rbBase + s.producer.currentWriteOffset.toNat =
        base + h.written.length % 2 ^ k := by rw [hl.producer.at_base,hl.writeOffset]
    have hn := hl.write hk hh msg hge
    simp only [System.step,scifRbWrite,hr,if_false,observe,if_true,stores,request,History.answer,
      bytes_length,hge]
    exact ⟨hn,trivial⟩
  | commit =>
    exact ⟨⟨hl.ordered.step .commit,hl.producer,hl.consumer,hl.writeOffset,hl.writeOffset,
      hl.readOffset,hl.readPtr,(append_nil cells).trans hl.slots,hl.stored⟩,rfl⟩
  | getNext msg n =>
    by_cases hf : scifRbCount s.consumer s.shared ≥ n
    · have hle : n.toNat ≤ h.waiting.length := by
        have := UInt32.le_iff_toNat_le.mp hf
        omega
      have hh : s.consumer.rbBase + s.consumer.currentReadOffset.toNat =
          base + h.returned.length % 2 ^ k := by rw [hl.consumer.at_base,hl.readOffset]
      have hs : Shaped k base { s.consumer with
          currentReadOffset := (s.consumer.currentReadOffset + n) &&& (s.consumer.size - 1) } :=
        ⟨hl.consumer.at_base,hl.consumer.laps⟩
      have hby := hl.fromrb_bytes hk hs hh msg hle
      have hn := hl.getNext hk hle
      simp only [System.step,scifRbGetNext,scifRbGet,hf,if_true,observe,stores,append_nil,request,
        History.answer,hle]
      rw [hby]
      exact ⟨hn,rfl⟩
    · have hgt : ¬ n.toNat ≤ h.waiting.length := by
        have := UInt32.le_iff_toNat_le.not.mp hf
        omega
      have hsm : h.record (.taken []) = h := by simp [History.record]
      simp only [System.step,scifRbGetNext,scifRbGet,hf,if_false,observe,stores,
        append_nil,request,History.answer,hgt,bytes_zero,hsm]
      exact ⟨hl,rfl⟩
  | updateReadPtr =>
    refine ⟨⟨hl.ordered.step .release,hl.producer,hl.consumer,hl.writeOffset,hl.writePtr,
      hl.readOffset,hl.readOffset,(append_nil cells).trans hl.slots,?_⟩,rfl⟩
    intro p b hp hb
    exact hl.stored p b (Nat.le_trans hl.ordered.published hp) hb

theorem Linked.run (hk : k < 32) (cs : List Call) :
    Linked k base (s.run cs).2 ((s.run cs).1.foldl observe h) (cells ++ placed s cs) := by
  induction cs generalizing s h cells with
  | nil => simpa [System.run,placed] using hl
  | cons c cs ih =>
    have hn := ih (hl.step hk c).1
    rw [append_assoc] at hn
    exact hn

end

theorem init_linked (mem : Memory UInt8) (base : Nat) (hk : k.toNat < 32) :
    Linked k.toNat base (System.init mem base k) History.empty [] := by
  have hs := size_toNat hk
  exact ⟨empty_ordered,⟨rfl,hs⟩,⟨rfl,hs⟩,(Nat.zero_mod _).symm,(Nat.zero_mod _).symm,
    (Nat.zero_mod _).symm,(Nat.zero_mod _).symm,rfl,fun p b _ hb => by simp [History.empty] at hb⟩

theorem step_outside (s : System) (c : Call) (ha : a ∉ stores s c) :
    (s.step c).2.shared.mem a = s.shared.mem a := by
  cases c with
  | write msg n =>
    simp only [stores] at ha
    simp only [System.step,scifRbWrite]
    split_ifs at ha with hr
    · rw [if_pos hr]
    · rw [if_neg hr]
      exact torb_outside ha
  | commit | getNext msg n | updateReadPtr => rfl

theorem write_reply (s : System) (msg : Nat → UInt8) (n : UInt32) :
    (s.step (.write msg n)).1 = .written 0 ∨
      (s.step (.write msg n)).1 = .written (-enomem) ∧ (s.step (.write msg n)).2 = s := by
  simp only [System.step,scifRbWrite]
  split
  · exact .inr ⟨rfl,rfl⟩
  · exact .inl rfl

theorem Linked.stores_free (hl : Linked k base s h cells)
    (hk : k < 32) (c : Call) (ha : a ∈ stores s c) : a ∉ cells.drop h.released := by
  cases c with
  | write msg n =>
    simp only [stores] at ha
    split_ifs at ha with hr
    · cases ha
    have hge : n.toNat ≤ 2 ^ k - 1 - h.held := by
      have := UInt32.lt_iff_toNat_lt.not.mp hr
      rw [hl.space hk] at this
      omega
    have hlp : n.toNat < 2 ^ k := by
      have := Nat.two_pow_pos k
      omega
    rw [hl.producer.at_base,hl.writeOffset,hl.producer.torb_cells hk _ hlp] at ha
    obtain ⟨i,hi,rfl⟩ := mem_map.mp ha
    rw [mem_range] at hi
    intro hd
    obtain ⟨j,hj,he⟩ := getElem_of_mem hd
    rw [length_drop] at hj
    simp only [getElem_drop,hl.slots,getElem_map,getElem_range] at he
    rw [hl.slots,length_map,length_range] at hj
    exact slots_fresh hge (Nat.le_add_right _ _) (by omega) hi he
  | commit | getNext msg n | updateReadPtr => cases ha

theorem nothing_unchanged (hl : Linked k base s h cells) (hk : k < 32)
    (hr : (s.step (.getNext msg n)).1 = .got 0 msg') : (s.step (.getNext msg n)).2 = s := by
  simp only [System.step,scifRbGetNext] at hr ⊢
  cases hg : scifRbGet s.consumer s.shared n with
  | none => rfl
  | some header =>
    simp only [hg,Reply.got.injEq] at hr
    obtain ⟨rfl,_⟩ := hr
    have ho : (s.consumer.currentReadOffset + 0) &&& (s.consumer.size - 1) =
        s.consumer.currentReadOffset := by
      apply UInt32.toNat_inj.mp
      rw [advance_toNat hl.consumer.laps hk hl.readOffset]
      simpa using hl.readOffset.symm
    simp only [ho]

/-- After any calls of both ends what was returned is a prefix of what was committed, and no byte
owed to the reader is overwritten. -/
def ByteFifo (start : System) (cs : List Call) : Prop :=
  let s := (start.run cs).2
  let h := observed (start.run cs).1
  h.returned <+: h.committed ∧ h.committed <+: h.written ∧
  (∀ c,∀ a ∈ stores s c,a ∉ (placed start cs).drop h.released) ∧
  (∀ c a,a ∉ stores s c → (s.step c).2.shared.mem a = s.shared.mem a) ∧
  (∀ msg n,(s.step (.write msg n)).1 = .written 0 ∨
    (s.step (.write msg n)).1 = .written (-enomem) ∧ (s.step (.write msg n)).2 = s) ∧
  (∀ msg n msg',(s.step (.getNext msg n)).1 = .got 0 msg' → (s.step (.getNext msg n)).2 = s)

theorem ring_is_byte_fifo (mem : Memory UInt8) (base : Nat) (k : UInt8) (hk : k.toNat < 32)
    (cs : List Call) : ByteFifo (System.init mem base k) cs := by
  have hl := (init_linked mem base hk).run hk cs
  refine ⟨hl.ordered.taken,hl.ordered.visible,fun c a => hl.stores_free hk c,
    fun c a => step_outside _ c,write_reply _,?_⟩
  intro msg n msg' hr
  exact nothing_unchanged hl hk hr

theorem ring_is_byte_fifo_page :
    ByteFifo (System.init (fun _ => 0) 4096 12)
      [.write (fun i => UInt8.ofNat i) 5,.commit,.getNext (fun _ => 0) 3,.updateReadPtr] :=
  ring_is_byte_fifo (fun _ => 0) 4096 12 (by decide) _

end Mpss.Proofs.RingFifo
