import Mpss.Library.Laps
import Mpss.Library.Runs
import Mpss.X200.Dma

namespace Mpss.Proofs.DmaRetired
open List hiding head
open Library.Laps Library.Runs X200.Dma Function Option

variable {ch : MicDmaChan} {s : Channel}

theorem memcpy_desc_valid (srcPhys dstPhys size : BitVec 64) (flags : BitVec 32) :
    (micDmaMemcpyDesc srcPhys dstPhys size flags).Valid := by
  intro h
  have hb := congrArg (fun v : BitVec 64 => v.getLsbD 31) h
  simp only [micDmaMemcpyDesc] at hb
  split at hb <;> simp [descValid] at hb

theorem done_not_valid {d : MicDmaDesc} : ¬ d.done.Valid := by
  simp only [MicDmaDesc.Valid,MicDmaDesc.done,ne_eq,not_not]
  rw [BitVec.and_assoc]
  simp [descValid]

/-- The descriptors between tail and head are those written there, the first of them executed; the
rest of the ring is free. -/
structure Ring (ch : MicDmaChan) (executed : Nat) : Prop where
  head : ch.head = ch.programmed.length % micDmaDescRxSize
  tail : ch.lastTail = ch.cleaned % micDmaDescRxSize
  passed : ch.cleaned ≤ executed
  ahead : executed ≤ ch.programmed.length
  room : ch.programmed.length < ch.cleaned + micDmaDescRxSize
  valid : ∀ d ∈ ch.programmed,d.Valid
  written : ∀ q d,ch.cleaned ≤ q → ch.programmed[q]? = some d →
    ch.descRing (q % micDmaDescRxSize) = if q < executed then d.done else d
  free : ∀ q,ch.programmed.length ≤ q → q < ch.cleaned + micDmaDescRxSize →
    ¬ (ch.descRing (q % micDmaDescRxSize)).Valid

@[simp] theorem retire_descRing : ch.retire.descRing = ch.descRing := by
  simp only [MicDmaChan.retire]
  split <;> rfl

@[simp] theorem retire_programmed : ch.retire.programmed = ch.programmed := by
  simp only [MicDmaChan.retire]
  split <;> rfl

@[simp] theorem retire_head : ch.retire.head = ch.head := by
  simp only [MicDmaChan.retire]
  split <;> rfl

theorem program_length : (ch.program d).programmed.length = ch.programmed.length + 1 := by
  simp [MicDmaChan.program]

section
variable (hr : Ring ch k)
include hr

theorem Ring.program (hd : d.Valid) (hrm : ch.programmed.length + 1 < ch.cleaned + micDmaDescRxSize) :
    Ring (ch.program d) k := by
  have hp := hr.passed
  have ha := hr.ahead
  have hrn : (ch.program d).descRing =
      update ch.descRing (ch.programmed.length % micDmaDescRxSize)
      d := by simp [MicDmaChan.program,hr.head]
  constructor
  · rw [program_length,← slot_succ,← hr.head]
    rfl
  · exact hr.tail
  · exact hp
  · rw [program_length]
    exact Nat.le_succ_of_le ha
  · rw [program_length]
    exact hrm
  · exact forall_mem_append.mpr ⟨hr.valid,forall_mem_singleton.mpr hd⟩
  · intro q e hq he
    change (ch.programmed ++ [d])[q]? = some e at he
    rw [hrn]
    rcases lt_trichotomy q ch.programmed.length with hlt | heq | hgt
    · rw [getElem?_append_left hlt] at he
      rw [update_other (t := ch.cleaned) (by omega) hq (by omega) (by omega) (by omega)]
      exact hr.written q e hq he
    · subst heq
      rw [getElem?_append_right le_rfl] at he
      simp only [Nat.sub_self,getElem?_cons_zero,some.injEq] at he
      rw [update_self,if_neg (by omega),he]
    · rw [getElem?_eq_none (by simp; omega)] at he
      cases he
  · intro q hq hlt
    rw [program_length] at hq
    rw [hrn,update_other (t := ch.cleaned) (by omega) (by omega) (by omega) hlt (by omega)]
    exact hr.free q (by omega) hlt

theorem Ring.executable (hv : (ch.descRing (k % micDmaDescRxSize)).Valid) :
    k < ch.programmed.length := by
  rcases lt_or_ge k ch.programmed.length with h | h
  · exact h
  · have := hr.room
    exact absurd hv (hr.free k h (by have := hr.ahead; omega))

theorem Ring.execute (hv : (ch.descRing (k % micDmaDescRxSize)).Valid) :
    Ring (ch.execute (k % micDmaDescRxSize)) (k + 1) := by
  have hk := hr.executable hv
  have hp := hr.passed
  have hrm := hr.room
  refine ⟨hr.head,hr.tail,Nat.le_succ_of_le hp,hk,hrm,hr.valid,?_,?_⟩
  · intro q d hq hd
    have hlt : q < ch.programmed.length := (List.getElem?_eq_some_iff.mp hd).1
    have hw := hr.written q d hq hd
    rcases eq_or_ne q k with rfl | hne
    · rw [if_neg (lt_irrefl q)] at hw
      simp only [MicDmaChan.execute]
      rw [update_self,if_pos (Nat.lt_succ_self q),hw]
    simp only [MicDmaChan.execute]
    rw [update_other (t := ch.cleaned) hp hq (by omega) (by omega) hne,hw]
    rcases lt_or_ge q k with h | h
    · rw [if_pos h,if_pos (by omega)]
    · rw [if_neg (by omega),if_neg (by omega)]
  · intro q hq hlt
    simp only [MicDmaChan.execute] at hq hlt ⊢
    rw [update_other (t := ch.cleaned) hp (by omega) (by omega) hlt (by omega)]
    exact hr.free q hq hlt

theorem Ring.next_executed (hne : ch.lastTail ≠ ch.head) (hv : ¬ (ch.descRing ch.lastTail).Valid) :
    ch.cleaned < k := by
  have hp := hr.passed
  have ha := hr.ahead
  rcases lt_or_ge ch.cleaned k with h | h
  · exact h
  have hlt : ch.cleaned < ch.programmed.length := by
    rcases lt_or_ge ch.cleaned ch.programmed.length with h' | h'
    · exact h'
    · refine absurd ?_ hne
      rw [hr.tail,hr.head,show ch.cleaned = ch.programmed.length by omega]
  have hd := getElem?_eq_getElem hlt
  have hw := hr.written _ _ le_rfl hd
  rw [if_neg (by omega)] at hw
  rw [hr.tail,hw] at hv
  exact absurd (hr.valid _ (getElem_mem hlt)) hv

theorem Ring.pass (hk : ch.cleaned < k) : Ring ch.pass k := by
  have hrm := hr.room
  have ha := hr.ahead
  have hs : (ch.cleaned + micDmaDescRxSize) % micDmaDescRxSize = ch.cleaned % micDmaDescRxSize :=
    Nat.add_mod_right _ _
  refine ⟨?_,?_,hk,?_,?_,?_,?_,?_⟩ <;>
    simp [MicDmaChan.pass,retire_head,retire_programmed,retire_descRing]
  · exact hr.head
  · rw [hr.tail]
    exact slot_succ
  · exact ha
  · omega
  · exact hr.valid
  · intro q d hq hd
    exact hr.written q d (by omega) hd
  intro q hq hlt
  rcases lt_or_ge q (ch.cleaned + micDmaDescRxSize) with h | h
  · exact hr.free q hq h
  · obtain rfl : q = ch.cleaned + micDmaDescRxSize := by omega
    have hd := getElem?_eq_getElem (show ch.cleaned < ch.programmed.length by omega)
    rw [hs,hr.written _ _ le_rfl hd,if_pos hk]
    exact done_not_valid

end

/-- What the transaction slot of a position holds until cleanup has passed it. -/
def Holds (tx : AsyncTx) : Option Submission → Prop
  | none => tx.cookie = 0 ∧ tx.callback = none
  | some x => tx.cookie = x.cookie ∧ tx.callback = x.callback

theorem Holds.setFlags (h : Holds tx o) (flags : BitVec 32) :
    Holds { tx with flags := flags } o := by
  cases o with
  | none | some x => exact h

/-- `owner` knows the submission whose final descriptor is at a position; cookies number them in
order, and all below the tail are reported. -/
structure Ledger (ch : MicDmaChan) (owner : Nat → Option Submission) : Prop where
  beyond : ∀ q,ch.programmed.length ≤ q → owner q = none
  slots : ∀ q,ch.cleaned ≤ q → q < ch.cleaned + micDmaDescRxSize →
    Holds (ch.txArray (q % micDmaDescRxSize)) (owner q)
  last : ∀ q x,owner q = some x → x.last = q
  cookies : ∀ q x,owner q = some x → x.cookie = (upTo owner q).length + 2
  completed : ch.completedCookie = (upTo owner ch.cleaned).length + 1
  used : ch.cookie = (upTo owner ch.programmed.length).length + 1
  ran : ch.ran = (upTo owner ch.cleaned).filterMap (·.callback)

theorem Ledger.program (hl : Ledger ch owner) (d : MicDmaDesc) : Ledger (ch.program d) owner := by
  refine { hl with beyond := ?_,used := ?_ }
  · intro q hq
    rw [program_length] at hq
    exact hl.beyond q (by omega)
  · rw [program_length,upTo_succ_none (hl.beyond _ le_rfl)]
    exact hl.used

theorem pass_of_none (h : (ch.txArray ch.lastTail).cookie = 0) :
    ch.pass = { ch with lastTail := micDmaRingInc ch.lastTail,cleaned := ch.cleaned + 1 } := by
  simp only [MicDmaChan.pass,MicDmaChan.retire]
  rw [if_neg (not_not.mpr h)]

theorem Ledger.tail_slot (hl : Ledger ch owner) (hr : Ring ch k) :
    Holds (ch.txArray ch.lastTail) (owner ch.cleaned) := by
  rw [hr.tail]
  exact hl.slots _ le_rfl (Nat.lt_add_of_pos_right (by decide))

theorem Ledger.pass (hl : Ledger ch owner) (hr : Ring ch k) :
    Ledger ch.pass owner ∧ ch.completedCookie ≤ ch.pass.completedCookie := by
  have hrm := hr.room
  set e := ch.cleaned + micDmaDescRxSize with he
  have hs : e % micDmaDescRxSize = ch.cleaned % micDmaDescRxSize := Nat.add_mod_right _ _
  have hw : owner e = none := hl.beyond _ hrm.le
  have ht := hl.tail_slot hr
  cases ho : owner ch.cleaned with
  | none =>
    rw [ho] at ht
    rw [pass_of_none ht.1]
    refine ⟨⟨hl.beyond,?_,hl.last,hl.cookies,?_,hl.used,?_⟩,le_rfl⟩
    · intro q hq hlt
      rcases lt_or_ge q e with h | h
      · exact hl.slots q (by dsimp only at hq; omega) h
      · obtain rfl : q = e := by dsimp only at hlt; omega
        rw [hs,hw,← hr.tail]
        exact ht
    · rw [upTo_succ_none ho]
      exact hl.completed
    · rw [upTo_succ_none ho]
      exact hl.ran
  | some x =>
    rw [ho] at ht
    have hc := hl.cookies _ _ ho
    have hne : (ch.txArray ch.lastTail).cookie ≠ 0 := by rw [ht.1]; omega
    have hp : ch.pass = { ch with
        completedCookie := x.cookie
        txArray := update ch.txArray ch.lastTail
          { ch.txArray ch.lastTail with cookie := 0,callback := none }
        ran := ch.ran ++ x.callback.toList
        lastTail := micDmaRingInc ch.lastTail
        cleaned := ch.cleaned + 1 } := by
      simp only [MicDmaChan.pass,MicDmaChan.retire]
      rw [if_pos hne,ht.1,ht.2]
    rw [hp]
    refine ⟨⟨hl.beyond,?_,hl.last,hl.cookies,?_,hl.used,?_⟩,?_⟩
    · intro q hq hlt
      dsimp only at hq hlt ⊢
      rw [hr.tail]
      rcases lt_or_ge q e with h | h
      · rw [update_other (t := ch.cleaned) le_rfl (by omega)
          (Nat.lt_add_of_pos_right (by decide)) h (by omega)]
        exact hl.slots q (by omega) h
      · obtain rfl : q = e := by omega
        rw [hs,hw,update_self]
        exact ⟨rfl,rfl⟩
    · rw [upTo_succ_some ho,hc]
      simp only [length_append,length_singleton]
      omega
    · rw [upTo_succ_some ho,hl.ran,filterMap_append]
      cases hx : x.callback <;> simp [hx]
    · dsimp only
      rw [hl.completed,hc]
      omega

/-- The slot of a preparer belongs to the position at or right before the head, which is neither
passed nor taken. -/
structure Pending (ch : MicDmaChan) (owner : Nat → Option Submission) (idx target : Nat) : Prop where
  slot : idx = target % micDmaDescRxSize
  unpassed : ch.cleaned ≤ target
  fits : target + 1 < ch.cleaned + micDmaDescRxSize
  place : if (ch.txArray idx).flags = 0 then target + 1 = ch.programmed.length
    else target = ch.programmed.length
  fresh : ∀ q,target ≤ q → owner q = none

@[simp] theorem retire_flags : (ch.retire.txArray i).flags = (ch.txArray i).flags := by
  simp only [MicDmaChan.retire]
  split
  · rcases eq_or_ne i ch.lastTail with rfl | h
    · simp
    · simp [update_of_ne h]
  · rfl

theorem Pending.pass (hp : Pending ch owner idx target)
    (hlt : ch.cleaned < target) : Pending ch.pass owner idx target := by
  refine ⟨hp.slot,hlt,?_,?_,hp.fresh⟩
  · exact Nat.lt_of_lt_of_le hp.fits (Nat.add_le_add_right (Nat.le_succ _) _)
  · simp only [MicDmaChan.pass,retire_flags,retire_programmed]
    exact hp.place

theorem cleanLoop_induct {I : MicDmaChan → Prop}
    (turn : ∀ ch,I ch → ch.lastTail ≠ h → ¬ (ch.descRing ch.lastTail).Valid → I ch.pass)
    (ch : MicDmaChan) (hi : I ch) : I (cleanLoop h n ch) := by
  induction n generalizing ch with
  | zero => exact hi
  | succ n ih =>
    simp only [cleanLoop]
    split
    · exact hi
    · split
      · exact hi
      · rename_i hne hv
        exact ih ch.pass (turn ch hi hne hv)

/-- What the channel looks like to the rest of the driver: the ring, the ledger and the slot of
a preparer who is waiting. -/
structure Good (ch : MicDmaChan) (k : Nat) (owner : Nat → Option Submission)
    (submitted : List Submission) (prepared : Option Nat) : Prop where
  ring : Ring ch k
  ledger : Ledger ch owner
  listed : submitted = upTo owner ch.programmed.length
  pending : ∀ idx,prepared = some idx → ∃ target,Pending ch owner idx target

/-- A transaction without flags must not be passed before it is submitted: its final descriptor
is still to be executed. -/
def Unexecuted (ch : MicDmaChan) (prepared : Option Nat) : Prop :=
  ∀ idx,prepared = some idx → (ch.txArray idx).flags = 0 → (ch.descRing (micDmaRingDec ch.head)).Valid

theorem ring_dec_slot (hp : 0 < p) :
    micDmaRingDec (p % micDmaDescRxSize) = (p - 1) % micDmaDescRxSize := by
  rw [micDmaRingDec,show micDmaDescRxSize = 4096 from rfl]
  split <;> omega

theorem Ring.last_unexecuted (hr : Ring ch k) (hc : ch.cleaned < ch.programmed.length)
    (hv : (ch.descRing (micDmaRingDec ch.head)).Valid) : k < ch.programmed.length := by
  rcases lt_or_ge k ch.programmed.length with h | h
  · exact h
  · have hlt : ch.programmed.length - 1 < ch.programmed.length := by omega
    have hw := hr.written _ _ (by omega) (getElem?_eq_getElem hlt)
    rw [hr.head,ring_dec_slot (by omega),hw,if_pos (by omega)] at hv
    exact absurd hv (done_not_valid)

theorem Good.cleanup (hg : Good ch k owner submitted prepared) (hu : Unexecuted ch prepared) :
    Good (micDmaCleanup ch) k owner submitted prepared ∧
      ch.completedCookie ≤ (micDmaCleanup ch).completedCookie := by
  let I : MicDmaChan → Prop := fun c =>
    c.head = ch.head ∧ c.programmed = ch.programmed ∧ Ring c k ∧ Ledger c owner ∧
      ch.completedCookie ≤ c.completedCookie ∧ ∀ idx,prepared = some idx →
      ∃ target,Pending c owner idx target ∧ k ≤ target
  have hi : I ch := by
    refine ⟨rfl,rfl,hg.ring,hg.ledger,le_rfl,?_⟩
    intro idx hid
    obtain ⟨target,hp⟩ := hg.pending idx hid
    refine ⟨target,hp,?_⟩
    have hpl := hp.place
    have ha := hg.ring.ahead
    have hun := hp.unpassed
    split_ifs at hpl with hf
    · have := hg.ring.last_unexecuted (by omega) (hu idx hid hf)
      omega
    · omega
  have turn : ∀ c,I c → c.lastTail ≠ ch.head → ¬ (c.descRing c.lastTail).Valid → I c.pass := by
    rintro c ⟨hh,hpr,hr,hl,hc,hp⟩ hne hv
    have hk := hr.next_executed (hh ▸ hne) hv
    obtain ⟨hl',hc'⟩ := hl.pass hr
    refine ⟨?_,?_,hr.pass hk,hl',hc.trans hc',?_⟩
    · simp [MicDmaChan.pass,retire_head,hh]
    · simp [MicDmaChan.pass,retire_programmed,hpr]
    · intro idx hid
      obtain ⟨target,hpt,hkt⟩ := hp idx hid
      exact ⟨target,hpt.pass (by omega),hkt⟩
  obtain ⟨_,hpr,hr,hl,hc,hp⟩ := cleanLoop_induct turn ch hi
  refine ⟨⟨hr,hl,?_,?_⟩,hc⟩
  · rw [micDmaCleanup,hpr]
    exact hg.listed
  intro idx hid
  obtain ⟨target,hpt,_⟩ := hp idx hid
  exact ⟨target,hpt⟩

def copies (len : Nat) : Nat := len / maxXferSize + (if len % maxXferSize ≠ 0 then 1 else 0)

theorem copies_step (h : len ≠ 0) : copies len = copies (len - min len maxXferSize) + 1 := by
  rcases lt_or_ge len maxXferSize with hl | hl
  · rw [min_eq_left hl.le,Nat.sub_self,copies,Nat.div_eq_of_lt hl,Nat.mod_eq_of_lt hl,if_pos h]
    rfl
  · rw [min_eq_right hl,copies,copies,← Nat.mod_eq_sub_mod hl,Nat.div_eq_sub_div (by decide) hl]
    omega

theorem Good.program (hg : Good ch k owner submitted none) (hd : d.Valid)
    (hr : ch.programmed.length + 1 < ch.cleaned + micDmaDescRxSize) :
    Good (ch.program d) k owner submitted none :=
  ⟨hg.ring.program hd hr,hg.ledger.program d,by
    rw [hg.listed,program_length,upTo_succ_none (hg.ledger.beyond _ le_rfl)],by simp⟩

theorem Good.programCopies (src dst : BitVec 64) (n : Nat) (hn : len ≤ n)
    (hg : Good ch k owner submitted none)
    (hr : ch.programmed.length + copies len < ch.cleaned + micDmaDescRxSize) :
    Good (programCopies ch src dst len n) k owner submitted none ∧
      (programCopies ch src dst len n).programmed.length = ch.programmed.length + copies len ∧
      (programCopies ch src dst len n).cleaned = ch.cleaned ∧
      (programCopies ch src dst len n).completedCookie = ch.completedCookie := by
  induction n generalizing ch src dst len with
  | zero =>
    obtain rfl : len = 0 := by omega
    exact ⟨hg,rfl,rfl,rfl⟩
  | succ n ih =>
    rcases eq_or_ne len 0 with rfl | h
    · exact ⟨hg,rfl,rfl,rfl⟩
    have hmn : 0 < min len maxXferSize := by
      have hm : maxXferSize = 134217727 := rfl
      omega
    rw [copies_step h] at hr ⊢
    simp only [X200.Dma.programCopies,if_neg h]
    have hg' := hg.program (memcpy_desc_valid src dst (BitVec.ofNat 64 (min len maxXferSize)) 0)
      (by omega)
    have hle : len - min len maxXferSize ≤ n := by omega
    obtain ⟨h1,h2,h3,h4⟩ := ih _ _ hle hg' (by
      rw [program_length]
      change _ < ch.cleaned + _
      omega)
    rw [program_length] at h2
    refine ⟨h1,?_,h3,h4⟩
    omega

theorem ring_count (hr : Ring ch k) :
    micDmaRingCount ch.head ch.lastTail =
      (ch.cleaned + micDmaDescRxSize : Int) - ch.programmed.length - 1 := by
  have hp := hr.passed
  have ha := hr.ahead
  have hrm := hr.room
  have hl := lap_cases ch.cleaned (show ch.programmed.length - ch.cleaned < micDmaDescRxSize by omega)
  rw [Nat.add_sub_cancel' (by omega)] at hl
  rw [micDmaRingCount,hr.head,hr.tail]
  split <;> omega

theorem s32_of_lt (h0 : 0 ≤ n) (h : n < 2 ^ 31) : s32 n = n := by
  unfold s32
  rw [Int.bmod_eq_of_le] <;> omega

theorem Ledger.setFlags (hl : Ledger ch owner) (idx : Nat) (flags : BitVec 32) :
    Ledger { ch with
      txArray := update ch.txArray idx { ch.txArray idx with flags := flags } } owner := by
  refine { hl with slots := ?_ }
  intro q hq hlt
  have h := hl.slots q hq hlt
  dsimp only
  rcases eq_or_ne (q % micDmaDescRxSize) idx with rfl | hne
  · rw [update_self]
    exact h.setFlags flags
  · rw [update_of_ne hne]
    exact h

theorem Ring.setTx (hr : Ring ch k) (txs : Nat → AsyncTx) : Ring { ch with txArray := txs } k :=
  { hr with }

theorem needed_eq : neededDesc len flags = copies len + (if flags ≠ 0 then 1 else 0) := rfl

section
variable (hg : Good ch k owner submitted none) (hn : neededDesc len flags < 2 ^ 31)
include hg hn

section
variable (h : micDmaProgMemcpyDesc ch src dst len flags = .ok ch')
include h

theorem Good.progMemcpyDesc :
    ch' = X200.Dma.programCopies ch src dst len len ∧ neededDesc len flags ≠ 0 ∧
      ch.programmed.length + neededDesc len flags < ch.cleaned + micDmaDescRxSize := by
  rw [micDmaProgMemcpyDesc,s32_of_lt (Int.natCast_nonneg _) (by exact_mod_cast hn)] at h
  split at h
  · cases h
  split at h
  · cases h
  · rename_i hc
    rw [ring_count hg.ring] at hc
    cases h
    refine ⟨rfl,?_,?_⟩ <;> omega

theorem Good.reserve :
    Good (allocateTx ch' flags).2 k owner submitted (some (allocateTx ch' flags).1) ∧
      (allocateTx ch' flags).2.completedCookie = ch.completedCookie := by
  obtain ⟨rfl,h0,hr⟩ := hg.progMemcpyDesc hn h
  rw [needed_eq] at h0 hr
  obtain ⟨hg',hl,hcl,hcc⟩ := hg.programCopies src dst len le_rfl (by omega)
  generalize X200.Dma.programCopies ch src dst len len = c at hg' hl hcl hcc
  refine ⟨⟨hg'.ring.setTx _,hg'.ledger.setFlags _ _,hg'.listed,?_⟩,hcc⟩
  have hp := hg.ring.passed
  have ha := hg.ring.ahead
  rintro _ ⟨⟩
  by_cases hf : flags = 0
  · simp only [hf,ne_eq,not_true_eq_false,if_false,add_zero] at h0 hr
    refine ⟨c.programmed.length - 1,?_,?_,?_,?_,?_⟩
    · simp only [allocateTx,hf,ne_eq,not_true_eq_false,if_false]
      rw [hg'.ring.head]
      exact ring_dec_slot (by omega)
    · change c.cleaned ≤ _
      omega
    · change _ < c.cleaned + _
      omega
    · simp only [allocateTx,hf,ne_eq,not_true_eq_false,if_false,update_self,if_true]
      omega
    · intro q hq
      exact hg.ledger.beyond q (by omega)
  · simp only [ne_eq,hf,not_false_eq_true,if_true] at hr
    refine ⟨c.programmed.length,?_,?_,?_,?_,?_⟩
    · simp only [allocateTx,ne_eq,hf,not_false_eq_true,if_true]
      exact hg'.ring.head
    · change c.cleaned ≤ _
      omega
    · change _ < c.cleaned + _
      omega
    · simp only [allocateTx,ne_eq,hf,not_false_eq_true,if_true,update_self,if_false]
    · exact hg'.ledger.beyond

end

theorem Good.programTx (h : programTx ch dmaDest dmaSrc len flags = .ok (idx,ch')) :
    Good ch' k owner submitted (some idx) ∧ ch'.completedCookie = ch.completedCookie := by
  unfold X200.Dma.programTx at h
  cases hm : micDmaProgMemcpyDesc ch dmaSrc dmaDest len flags with
  | error e =>
    rw [hm] at h
    cases h
  | ok c =>
    rw [hm] at h
    have hp := hg.reserve hn hm
    have he : allocateTx c flags = (idx,ch') := Except.ok.inj h
    rw [he] at hp
    exact hp

theorem Good.retryTx (h : retryTx ch (X200.Dma.programTx ch dmaDest dmaSrc len flags) = (prepared,ch')) :
    Good ch' k owner submitted prepared ∧ ch.completedCookie ≤ ch'.completedCookie := by
  cases hc : X200.Dma.programTx ch dmaDest dmaSrc len flags with
  | ok r =>
    rw [hc] at h
    obtain ⟨hp,hcc⟩ := hg.programTx hn hc
    cases h
    exact ⟨hp,le_of_eq hcc.symm⟩
  | error e =>
    rw [hc] at h
    cases h
    exact ⟨hg,le_rfl⟩

theorem Good.prepMemcpyLock (h : micDmaPrepMemcpyLock ch dmaDest dmaSrc len flags = (prepared,ch')) :
    Good ch' k owner submitted prepared ∧ ch.completedCookie ≤ ch'.completedCookie := by
  rw [micDmaPrepMemcpyLock] at h
  cases hc : X200.Dma.programTx ch dmaDest dmaSrc len flags with
  | ok r =>
    rw [hc] at h
    exact hg.retryTx hn (by rw [hc]; exact h)
  | error e =>
    rw [hc] at h
    cases e with
    | einval => exact hg.retryTx hn (by rw [hc]; exact h)
    | ebusy =>
      obtain ⟨hgc,hm⟩ := hg.cleanup (by simp [Unexecuted])
      simp only [prepTx] at h
      obtain ⟨hp,hcc⟩ := hgc.retryTx hn h
      exact ⟨hp,hm.trans hcc⟩

end

theorem cookie_assign (h0 : 0 ≤ c) (h : c + 1 < 2 ^ 31) : dmaCookieAssign c = c + 1 := by
  simp only [dmaCookieAssign,s32_of_lt (Int.le_add_one h0) h,dmaMinCookie]
  rw [if_neg (by omega)]

theorem Ledger.submit (hl : Ledger ch owner)
    (hp : Pending ch owner idx target) (hls : x.last = target) (hc : x.cookie = ch.cookie + 1)
    (hln : programmed.length = target + 1) (htx : Holds tx (some x)) :
    Ledger { ch with
      descRing := ring
      txArray := update ch.txArray idx tx
      head := head
      cookie := x.cookie
      programmed := programmed } (update owner target (some x)) := by
  have hf := hp.fits
  have hun := hp.unpassed
  have hpl := hp.place
  have hlw : ∀ n,n ≤ target → upTo (update owner target (some x)) n = upTo owner n := by
    intro n hn
    refine upTo_congr ?_
    intro q hq
    exact update_of_ne (by omega) _ _
  have hu : upTo owner ch.programmed.length = upTo owner target := by
    refine upTo_skip ?_ ?_
    · split at hpl <;> omega
    · intro q hq _
      exact hp.fresh q hq
  have hcn : x.cookie = (upTo owner target).length + 2 := by
    rw [hc,hl.used,hu]
    omega
  constructor <;> try dsimp only
  · intro q hq
    rw [update_of_ne (by omega)]
    exact hp.fresh q (by omega)
  · intro q hq hlt
    rw [hp.slot]
    rcases eq_or_ne q target with rfl | hne
    · rw [update_self,update_self]
      exact htx
    · rw [update_other (t := ch.cleaned) hun hq (by omega) hlt hne,update_of_ne hne]
      exact hl.slots q hq hlt
  · intro q y hq
    rcases eq_or_ne q target with rfl | hne
    · rw [update_self] at hq
      cases hq
      exact hls
    · rw [update_of_ne hne] at hq
      exact hl.last q y hq
  · intro q y hq
    rcases eq_or_ne q target with rfl | hne
    · rw [update_self] at hq
      cases hq
      rw [hlw q le_rfl]
      exact hcn
    rw [update_of_ne hne] at hq
    have hlt : q < target := by
      by_contra h
      rw [hp.fresh q (by omega)] at hq
      cases hq
    rw [hlw q (by omega)]
    exact hl.cookies q y hq
  · rw [hlw _ hun]
    exact hl.completed
  · rw [hln,upTo_update,hcn]
    simp only [length_append,length_singleton]
    omega
  · rw [hlw _ hun]
    exact hl.ran

theorem submit_slot (hl : Ledger ch owner) (hp : Pending ch owner idx target)
    (callback : Option Nat) (cookie : Int) (flags : BitVec 32) :
    Holds { (setCallback ch idx callback).txArray idx with cookie := cookie }
      (some ⟨target,cookie,flags,callback⟩) := by
  have h := hl.slots target hp.unpassed (by have := hp.fits; omega)
  rw [hp.fresh target le_rfl,← hp.slot] at h
  cases callback with
  | none => exact ⟨rfl,h.2⟩
  | some f => simp [Holds,setCallback]

theorem setCallback_update :
    update (setCallback ch idx callback).txArray idx tx = update ch.txArray idx tx := by
  cases callback <;> simp [setCallback]

theorem setCallback_flags :
    ((setCallback ch idx callback).txArray idx).flags = (ch.txArray idx).flags := by
  cases callback <;> simp [setCallback]

def cookieSet (ch : MicDmaChan) (idx : Nat) (tx : AsyncTx) : MicDmaChan :=
  { ch with cookie := tx.cookie,txArray := update ch.txArray idx tx }

theorem submit_unflagged (callback : Option Nat)
    (hf : (ch.txArray idx).flags = 0) :
    micDmaTxSubmitUnlock (setCallback ch idx callback) idx =
      (dmaCookieAssign ch.cookie,cookieSet ch idx
        { (setCallback ch idx callback).txArray idx with cookie := dmaCookieAssign ch.cookie }) := by
  simp only [micDmaTxSubmitUnlock,setCallback_flags,hf,ne_eq,not_true_eq_false,if_false,
    setCallback_update,cookieSet]
  cases callback <;> rfl

theorem submit_flagged (callback : Option Nat)
    (hf : (ch.txArray idx).flags ≠ 0) :
    micDmaTxSubmitUnlock (setCallback ch idx callback) idx =
      (dmaCookieAssign ch.cookie,cookieSet
        (ch.program (micDmaMemcpyDesc ch.descRingDa ch.descRingDa 0 (ch.txArray idx).flags)) idx
        { (setCallback ch idx callback).txArray idx with
          cookie := dmaCookieAssign ch.cookie,flags := 0 }) := by
  simp only [micDmaTxSubmitUnlock,setCallback_flags,hf,ne_eq,not_false_eq_true,if_true,
    setCallback_update,cookieSet,micDmaFenceIntrDesc,MicDmaChan.program]
  cases callback <;> simp [setCallback]

/-- Everything that is known about a channel, its preparer and its engine. -/
structure Inv (s : Channel) : Prop where
  next : s.next = s.completed % micDmaDescRxSize
  good : ∃ owner,Good s.ch s.completed owner s.submitted s.prepared

theorem init_inv : Inv (Channel.init da) := by
  refine ⟨rfl,fun _ => none,⟨⟨rfl,rfl,le_rfl,le_rfl,?_,?_,?_,?_⟩,
    ⟨fun _ _ => rfl,fun _ _ _ => ⟨rfl,rfl⟩,?_,?_,rfl,rfl,rfl⟩,rfl,?_⟩⟩
  · exact Nat.lt_add_of_pos_right (by decide)
  · simp [Channel.init]
  · simp [Channel.init]
  · simp [Channel.init,MicDmaDesc.Valid]
  · simp
  · simp
  · simp [Channel.init]

theorem Inv.complete (hi : Inv s) (hv : (s.ch.descRing s.next).Valid) :
    Inv { s with
      ch := s.ch.execute s.next
      next := micDmaRingInc s.next
      completed := s.completed + 1 } := by
  obtain ⟨owner,hg⟩ := hi.good
  rw [hi.next] at hv
  refine ⟨?_,owner,?_,?_,hg.listed,?_⟩
  · rw [hi.next]
    exact slot_succ
  · rw [hi.next]
    exact hg.ring.execute hv
  · exact { hg.ledger with }
  · intro idx hid
    obtain ⟨target,hp⟩ := hg.pending idx hid
    exact ⟨target,hp.slot,hp.unpassed,hp.fits,hp.place,hp.fresh⟩

theorem Inv.record (hi : Inv s)
    (hs : s.submitted = upTo owner target) (hr : Ring ch s.completed)
    (hln : ch.programmed.length = target + 1)
    (hl : Ledger (cookieSet ch idx tx) (update owner target (some x))) :
    Inv { s with ch := cookieSet ch idx tx,prepared := none,submitted := s.submitted ++ [x] } := by
  refine ⟨hi.next,update owner target (some x),?_,hl,?_,by simp⟩
  · exact { hr with }
  · simp [cookieSet,hln,upTo_update,hs]

theorem Inv.submit (hi : Inv s) (hid : s.prepared = some idx) (hc : s.ch.cookie + 1 < 2 ^ 31)
    (callback : Option Nat) : Inv (s.submit idx callback) ∧
      (s.submit idx callback).ch.completedCookie = s.ch.completedCookie := by
  obtain ⟨owner,hg⟩ := hi.good
  obtain ⟨target,hp⟩ := hg.pending idx hid
  have hu := hg.ledger.used
  have ha : dmaCookieAssign s.ch.cookie = s.ch.cookie + 1 := cookie_assign (by omega) hc
  have hs := submit_slot hg.ledger hp callback (s.ch.cookie + 1) (s.ch.txArray idx).flags
  have hpl := hp.place
  have hft := hp.fits
  have hsb : s.submitted = upTo owner target := by
    rw [hg.listed]
    refine upTo_skip ?_ (fun q hq _ => hp.fresh q hq)
    split at hpl <;> omega
  by_cases hf : (s.ch.txArray idx).flags = 0
  · rw [if_pos hf] at hpl
    have hch := hi.record hsb hg.ring hpl.symm (hg.ledger.submit hp rfl rfl hpl.symm hs)
    simp only [Channel.submit,submit_unflagged callback hf,ha,cookieSet,← hpl,Nat.add_sub_cancel]
    exact ⟨hch,trivial⟩
  rw [if_neg hf] at hpl
  have hr := hg.ring.program (memcpy_desc_valid s.ch.descRingDa s.ch.descRingDa 0
    (s.ch.txArray idx).flags) (by omega)
  have hl : ∀ d,(s.ch.program d).programmed.length = target + 1 := fun d => by rw [program_length,hpl]
  have hch := hi.record hsb hr (hl _) (hg.ledger.submit hp rfl rfl (hl _) (hs.setFlags 0))
  simp only [Channel.submit,submit_flagged callback hf,ha]
  simp only [cookieSet,hl,Nat.add_sub_cancel]
  exact ⟨hch,rfl⟩

/-- Counts fit an `int`, cookies have not wrapped, and no cleanup comes between the execution of a
transaction without flags and its submission. -/
def Allowed (s : Channel) : Act → Prop
  | .prep _ _ len flags => neededDesc len flags < 2 ^ 31
  | .submit _ => s.ch.cookie + 1 < 2 ^ 31
  | .complete => True
  | .cleanup => Unexecuted s.ch s.prepared

theorem Inv.prep (hi : Inv s) (hp : s.prepared = none) (hn : neededDesc len flags < 2 ^ 31)
    (h : micDmaPrepMemcpyLock s.ch dmaDest dmaSrc len flags = (prepared,ch)) :
    Inv { s with ch := ch,prepared := prepared } ∧ s.ch.completedCookie ≤ ch.completedCookie := by
  obtain ⟨owner,hg⟩ := hi.good
  rw [hp] at hg
  obtain ⟨hg',hm⟩ := hg.prepMemcpyLock hn h
  exact ⟨⟨hi.next,owner,hg'⟩,hm⟩

theorem act_prep (h : s.act (.prep dmaDest dmaSrc len flags) = some t) :
    s.prepared = none ∧ t = { s with
      ch := (micDmaPrepMemcpyLock s.ch dmaDest dmaSrc len flags).2
      prepared := (micDmaPrepMemcpyLock s.ch dmaDest dmaSrc len flags).1 } := by
  obtain ⟨hp,h⟩ := ite_none_left_eq_some.mp h
  exact ⟨not_isSome_iff_eq_none.mp hp,(some.inj h).symm⟩

theorem Inv.act (hi : Inv s) (ha : Allowed s a) (h : s.act a = some t) :
    Inv t ∧ s.ch.completedCookie ≤ t.ch.completedCookie := by
  cases a with
  | prep dmaDest dmaSrc len flags =>
    obtain ⟨hp,ht⟩ := act_prep h
    generalize hr : micDmaPrepMemcpyLock s.ch dmaDest dmaSrc len flags = r at ht
    obtain ⟨prepared,ch⟩ := r
    rw [ht]
    exact hi.prep hp ha hr
  | submit callback =>
    obtain ⟨idx,hid,rfl⟩ := map_eq_some_iff.mp h
    obtain ⟨hi',hc⟩ := hi.submit hid ha callback
    exact ⟨hi',le_of_eq hc.symm⟩
  | complete =>
    obtain ⟨hv,h⟩ := ite_none_right_eq_some.mp h
    cases h
    exact ⟨hi.complete hv,Int.le_refl _⟩
  | cleanup =>
    obtain rfl := some.inj h
    obtain ⟨owner,hg⟩ := hi.good
    obtain ⟨hg',hm⟩ := hg.cleanup ha
    exact ⟨⟨hi.next,owner,hg'⟩,hm⟩

/-- Nothing unexecuted is overwritten; cookies are complete in the order of submission, once the
engine is past their descriptors; callbacks run once each for the oldest submissions. -/
structure Sound (s : Channel) : Prop where
  bounds : s.ch.lastTail = s.ch.cleaned % micDmaDescRxSize ∧
    s.ch.head = s.ch.programmed.length % micDmaDescRxSize ∧
    s.ch.programmed.length < s.ch.cleaned + micDmaDescRxSize
  kept : ∀ q d,s.ch.cleaned ≤ q → s.ch.programmed[q]? = some d →
    s.ch.descRing (q % micDmaDescRxSize) = if q < s.completed then d.done else d
  ordered : s.submitted.Pairwise (fun x y => x.last < y.last)
  reported : ∀ x ∈ s.submitted,dmaCookieStatus s.ch x.cookie = true → x.last < s.completed
  called : s.ch.ran <+: s.submitted.filterMap (·.callback)
  flushed : s.prepared = none → s.completed = s.ch.programmed.length →
    (micDmaCleanup s.ch).ran = s.submitted.filterMap (·.callback)

theorem Ledger.status (hl : Ledger ch owner) (hr : Ring ch k)
    (hx : owner q = some x) (hs : dmaCookieStatus ch x.cookie = true) : q < ch.cleaned := by
  have hp : q < ch.programmed.length := by
    by_contra h
    rw [hl.beyond q (by omega)] at hx
    cases hx
  have hc := hl.cookies q x hx
  have hn : (upTo owner (q + 1)).length = (upTo owner q).length + 1 := by simp [upTo_succ_some hx]
  have hu := (upTo_mono owner (show q + 1 ≤ ch.programmed.length from hp)).length_le
  have hle := (upTo_mono owner (hr.passed.trans hr.ahead)).length_le
  have hck : x.cookie ≤ ch.completedCookie := by
    simp only [dmaCookieStatus,dmaAsyncIsComplete,hl.completed,hl.used,hc] at hs ⊢
    rw [if_pos (by omega)] at hs
    have := of_decide_eq_true hs
    omega
  by_contra h
  have hq := (upTo_mono owner (show ch.cleaned ≤ q by omega)).length_le
  rw [hl.completed,hc] at hck
  omega

theorem cleanLoop_reaches (hr : Ring ch ch.programmed.length)
    (hn : ch.programmed.length ≤ ch.cleaned + n) :
    (cleanLoop ch.head n ch).cleaned = ch.programmed.length := by
  have hp := hr.passed
  induction n generalizing ch with
  | zero =>
    simp only [cleanLoop]
    omega
  | succ n ih =>
    rcases eq_or_lt_of_le hp with heq | hlt
    · have ht : ch.lastTail = ch.head := by rw [hr.tail,hr.head,heq]
      simp [cleanLoop,if_pos ht,heq]
    have hne : ch.lastTail ≠ ch.head := by
      intro h
      rw [hr.tail,hr.head] at h
      have := slot_inj le_rfl hp (Nat.lt_add_of_pos_right (by decide)) hr.room h
      omega
    have hv : ¬ (ch.descRing ch.lastTail).Valid := by
      rw [hr.tail,hr.written _ _ le_rfl (getElem?_eq_getElem hlt),if_pos hlt]
      exact done_not_valid
    have hps := hr.pass hlt
    have hpr : ch.pass.programmed = ch.programmed := retire_programmed
    have hh : ch.pass.head = ch.head := retire_head
    have hc : ch.pass.cleaned = ch.cleaned + 1 := rfl
    rw [← hpr] at hps
    have h := ih hps (by rw [hpr,hc]; omega) (by rw [hpr,hc]; omega)
    rw [hh,hpr] at h
    simp only [cleanLoop,if_neg hne,if_neg hv]
    exact h

theorem Inv.sound (hi : Inv s) : Sound s := by
  obtain ⟨owner,hg⟩ := hi.good
  have hle := hg.ring.passed.trans hg.ring.ahead
  refine ⟨⟨hg.ring.tail,hg.ring.head,hg.ring.room⟩,hg.ring.written,?_,?_,?_,?_⟩
  · rw [hg.listed]
    exact upTo_pairwise hg.ledger.last
  · intro x hx hs
    rw [hg.listed] at hx
    obtain ⟨q,_,hq⟩ := mem_upTo.mp hx
    rw [hg.ledger.last q x hq]
    exact (hg.ledger.status hg.ring hq hs).trans_le hg.ring.passed
  · rw [hg.listed,hg.ledger.ran]
    exact (upTo_mono owner hle).filterMap _
  · intro hp hc
    rw [hp] at hg
    obtain ⟨hg',_⟩ := hg.cleanup (by simp [Unexecuted])
    have hr := hg.ring
    rw [hc] at hr
    have hrm := hr.room
    have hcl : (micDmaCleanup s.ch).cleaned = s.ch.programmed.length :=
      cleanLoop_reaches hr (by omega)
    rw [hg'.ledger.ran,hg.listed,hcl]

/-- In an allowed run every state is sound and completed cookies only grow. -/
theorem completions_in_order (da : BitVec 64) (as bs : List Act) {t : Channel}
    (ha : Along Channel.act Allowed (Channel.init da) (as ++ bs))
    (hs : exec Channel.act (Channel.init da) as = some s) (ht : exec Channel.act s bs = some t) :
    Sound s ∧ Sound t ∧ s.ch.completedCookie ≤ t.ch.completedCookie := by
  obtain ⟨ha1,ha2⟩ := ha.split hs
  have hi : Inv s := exec_invariant (fun u a v hu hok h => (hu.act hok h).1) (init_inv) ha1 hs
  have step : ∀ u a v,(Inv u ∧ s.ch.completedCookie ≤ u.ch.completedCookie) → Allowed u a →
      u.act a = some v → Inv v ∧ s.ch.completedCookie ≤ v.ch.completedCookie := by
    rintro u a v ⟨hu,hc⟩ hok h
    obtain ⟨hv,hm⟩ := hu.act hok h
    exact ⟨hv,hc.trans hm⟩
  obtain ⟨hj,hc⟩ := exec_invariant step ⟨hi,le_rfl⟩ ha2 ht
  exact ⟨hi.sound,hj.sound,hc⟩

def copyTwice : List Act :=
  [.prep 0x1000 0x2000 64 1,.submit (some 7),.prep 0x3000 0x4000 64 1,.submit (some 8)] ++
    replicate 4 .complete ++ [.cleanup]

theorem copyTwice_in_order : ∃ t,exec Channel.act (Channel.init 0) copyTwice = some t ∧
    t.ch.ran = [7,8] ∧ t.ch.completedCookie = 3 ∧ Sound t := by
  have ha : Along Channel.act Allowed (Channel.init 0) ([] ++ copyTwice) := by
    iterate 2
      refine Along.cons (show neededDesc 64 1 < 2 ^ 31 by decide) rfl ?_
      refine Along.cons (by simp only [Allowed]; decide) rfl ?_
    iterate 4 refine Along.cons trivial rfl ?_
    refine Along.cons ?_ rfl trivial
    intro idx h
    cases h
  refine ⟨_,rfl,by decide,by decide,?_⟩
  exact (completions_in_order 0 [] copyTwice ha rfl rfl).2.1

def round : List Act := [.prep 0 0 64 0,.submit none,.complete,.cleanup]

/-- Nothing is in flight, the cookies are at `c` and completed up to `k`, and slot 0 holds a
cookie that was forgotten. -/
inductive Idle (h : Nat) (c k : Int) : Channel → Prop
  | mk {tx : Nat → AsyncTx} (late : (tx 0).cookie = 2) :
    Idle h c k ⟨⟨ring,da,tx,h,h,c,k,programmed,cleaned,ran⟩,none,h,completed,submitted⟩

theorem prog_one (h : ch.head = ch.lastTail) (hf : flags = 0 ∨ flags = 1) :
    micDmaProgMemcpyDesc ch 0 0 64 flags = .ok (ch.program (micDmaMemcpyDesc 0 0 64 0)) := by
  have hc : micDmaRingCount ch.head ch.lastTail = 4095 := by simp [micDmaRingCount,h,micDmaDescRxSize]
  have hn : s32 (neededDesc 64 flags) = 1 ∨ s32 (neededDesc 64 flags) = 2 := by
    rcases hf with rfl | rfl
    · exact .inl (by decide)
    · exact .inr (by decide)
  rcases hn with hn | hn <;> rw [micDmaProgMemcpyDesc,hn,hc] <;>
    simp [programCopies,maxXferSize,descSizeMask]

theorem dec_inc (hh : h < micDmaDescRxSize) : micDmaRingDec (micDmaRingInc h) = h := by
  rw [micDmaRingInc,ring_dec_slot (Nat.succ_pos h)]
  exact Nat.mod_eq_of_lt hh

theorem inc_ne (h : Nat) : h ≠ micDmaRingInc h := by
  rw [micDmaRingInc,show micDmaDescRxSize = 4096 from rfl]
  omega

theorem cleanLoop_stop (h : ch.lastTail = cachedHead) : cleanLoop cachedHead n ch = ch := by
  cases n with
  | zero => rfl
  | succ n => simp only [cleanLoop,if_pos h]

theorem cleanup_one (hh : ch.head = micDmaRingInc ch.lastTail)
    (hv : ¬ (ch.descRing ch.lastTail).Valid) : micDmaCleanup ch = ch.pass := by
  have hne : ch.lastTail ≠ ch.head := hh ▸ inc_ne ch.lastTail
  change cleanLoop ch.head (4095 + 1) ch = _
  rw [cleanLoop,if_neg hne,if_neg hv]
  exact cleanLoop_stop hh.symm

theorem Idle.round (hq : Idle h c k s) (hh : h < micDmaDescRxSize) (h0 : h ≠ 0) (hc : 0 ≤ c)
    (hlt : c + 1 < 2 ^ 31) :
    ∃ t,exec Channel.act s round = some t ∧ Idle (micDmaRingInc h) (c + 1) (c + 1) t := by
  obtain ⟨hl⟩ := hq
  simp only [exec,DmaRetired.round,Channel.act,micDmaPrepMemcpyLock,programTx,prog_one,
    prepTx,Except.map,
    allocateTx,MicDmaChan.program,dec_inc hh,Channel.submit,setCallback,
    micDmaTxSubmitUnlock,isSome_none,
    bind_some,map_some,if_false,Bool.false_eq_true,update_self,cookie_assign hc hlt,true_or,
    not_true,ne_eq,
    if_pos (memcpy_desc_valid 0 0 64 0),MicDmaChan.execute,update_idem]
  rw [cleanup_one rfl (by simp [done_not_valid])]
  simp only [MicDmaChan.pass,MicDmaChan.retire,update_self]
  rw [if_pos (by omega)]
  exact ⟨_,rfl,⟨by simpa [h0.symm] using hl⟩⟩

theorem Idle.rounds (n : Nat) (hq : Idle (p % micDmaDescRxSize) c c s) (h0 : 0 < p)
    (hn : p + n ≤ micDmaDescRxSize) (hc : 0 ≤ c) (hlt : c + n < 2 ^ 31) :
    ∃ t,exec Channel.act s (replicate n DmaRetired.round).flatten = some t ∧
      Idle ((p + n) % micDmaDescRxSize) (c + n) (c + n) t := by
  induction n generalizing s p c with
  | zero => exact ⟨s,rfl,by simpa using hq⟩
  | succ n ih =>
    have hl' : p % micDmaDescRxSize = p := Nat.mod_eq_of_lt (by omega)
    obtain ⟨u,hu,hq'⟩ := hq.round (by omega) (by omega) hc (by omega)
    rw [micDmaRingInc,slot_succ] at hq'
    obtain ⟨t,ht,hqt⟩ := ih hq' (by omega) (by omega) (by omega) (by omega)
    refine ⟨t,?_,?_⟩
    · rw [replicate_succ,flatten_cons,exec_append hu]
      exact ht
    · rw [show p + (n + 1) = p + 1 + n by omega,show c + (n + 1 : Nat) = c + 1 + n by omega]
      exact hqt

/-- A transaction without flags is executed and cleaned up before it is submitted: its cookie goes
into a slot already passed. -/
def lateSubmit : List Act := [.prep 0 0 64 0,.complete,.cleanup,.submit none]

theorem lateSubmit_idle :
    ∃ s,exec Channel.act (Channel.init 0) lateSubmit = some s ∧ Idle 1 2 1 s := ⟨_,rfl,⟨rfl⟩⟩

theorem Idle.copy_executed (hq : Idle 0 c k s) :
    ∃ t,exec Channel.act s [.prep 0 0 64 1,.complete] = some t ∧ t.ch.completedCookie = k ∧
      (micDmaCleanup t.ch).completedCookie = 2 := by
  obtain ⟨hl⟩ := hq
  have ho : (1 : BitVec 32) ≠ 0 := by decide
  simp only [exec,Channel.act,micDmaPrepMemcpyLock,programTx,prog_one,prepTx,Except.map,
    allocateTx,MicDmaChan.program,isSome_none,
    bind_some,if_false,Bool.false_eq_true,update_self,or_true,if_pos ho,
    if_pos (memcpy_desc_valid 0 0 64 0),MicDmaChan.execute,update_idem]
  refine ⟨_,rfl,rfl,?_⟩
  rw [cleanup_one rfl (by simp [done_not_valid])]
  simp [MicDmaChan.pass,MicDmaChan.retire,inc_ne 0,hl]

/-- The channel once around the ring after `lateSubmit`, with a new copy executed in slot 0. -/
def onceAround : List Act :=
  lateSubmit ++ (round ++ ((replicate 4094 round).flatten ++ [.prep 0 0 64 1,.complete]))

/-- Cleanup then completes the forgotten cookie 2, although 4097 was completed before. -/
theorem forgotten_cookie_moves_back : ∃ s t,exec Channel.act (Channel.init 0) onceAround = some s ∧
    s.act .cleanup = some t ∧ s.ch.completedCookie = 4097 ∧ t.ch.completedCookie = 2 ∧
    ¬ s.ch.completedCookie ≤ t.ch.completedCookie := by
  obtain ⟨s0,h₀,hq0⟩ := lateSubmit_idle
  obtain ⟨s1,h₁,hq1⟩ := hq0.round (by decide) (by decide) (by decide) (by decide)
  obtain ⟨s2,h₂,hq2⟩ := Idle.rounds 4094 (p := 2) hq1 (by decide) (by decide) (by decide) (by decide)
  obtain ⟨s,hs,hc,hcl⟩ := Idle.copy_executed hq2
  refine ⟨s,{ s with ch := micDmaCleanup s.ch },?_,rfl,hc,hcl,?_⟩
  · rw [onceAround,exec_append h₀,exec_append h₁,exec_append h₂]
    exact hs
  · rw [hc]
    rw [hcl]
    decide

end Mpss.Proofs.DmaRetired
