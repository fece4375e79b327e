import Mpss.Scif.Copy

namespace Mpss.Proofs.WindowRun
open List hiding iter
open Scif.Copy

/-- The chunks, one after the other, are the pages. -/
def Backed (bus : Nat → Nat) : List Chunk → List Nat → Prop
  | [],pages => pages = []
  | c :: cs,pages =>
    0 < c.numPages ∧ c.dmaAddr % pageSize = 0 ∧ c.numPages ≤ pages.length ∧
      (∀ i < c.numPages,∀ b < pageSize,bus (c.dmaAddr + i * pageSize + b) = pages.getD i 0 + b) ∧
      Backed bus cs (pages.drop c.numPages)

/-- A window whose chunks are consistent with its pages. -/
structure Sound (bus : Nat → Nat) (w : Window) : Prop where
  aligned : w.offset % pageSize = 0
  pages : w.pages.length = w.nrPages
  backed : Backed bus w.chunks w.pages

def cellIn (pages : List Nat) (start off : Nat) : Nat :=
  pages.getD ((off - start) / pageSize) 0 + off % pageSize

def cell (w : Window) (off : Nat) : Nat := cellIn w.pages w.offset off

/-- The iterator stands at a chunk that starts no later than `off`. -/
def Valid (bus : Nat → Nat) (w : Window) (off : Nat) (iter : Iter) : Prop :=
  ∃ n ≤ w.pages.length,iter.offset = w.offset + n * pageSize ∧ iter.offset ≤ off ∧
    Backed bus (w.chunks.drop iter.index) (w.pages.drop n)

variable {bus : Nat → Nat} {w : Window}

theorem Valid.later (h : Valid bus w off iter) (ho : off ≤ off') : Valid bus w off' iter := by
  obtain ⟨n,hn,he,hle,hb⟩ := h
  exact ⟨n,hn,he,hle.trans ho,hb⟩

theorem Sound.valid_init (h : Sound bus w) (ho : w.offset ≤ off) :
    Valid bus w off (scifInitWindowIter w) :=
  ⟨0,Nat.zero_le _,by simp [scifInitWindowIter],ho,h.backed⟩

/-- An address behind which, up to the end of a page, the cells from the offset on lie. -/
structure Found (bus : Nat → Nat) (w : Window) (off : Nat) (d : DmaAddr) : Prop where
  pos : 0 < d.nrBytes
  inside : off + d.nrBytes ≤ w.endOffset
  page : (off + d.nrBytes) % pageSize = 0
  cells : ∀ k < d.nrBytes,bus (d.addr + k) = cell w (off + k)
  valid : Valid bus w off d.iter

theorem Found.dvd_bytes (h : Found bus w off d) (hp : n ∣ pageSize) (ho : n ∣ off) : n ∣ d.nrBytes :=
  (Nat.dvd_add_right ho).mp (dvd_trans hp (Nat.dvd_of_mod_eq_zero h.page))

theorem getD_drop (l : List Nat) (n i : Nat) : (l.drop n).getD i 0 = l.getD (n + i) 0 := by simp [getD]

theorem cellIn_drop (ho : start + n * pageSize ≤ off) :
    cellIn (pages.drop n) (start + n * pageSize) off = cellIn pages start off := by
  unfold cellIn
  rw [getD_drop]
  have : n + (off - (start + n * pageSize)) / pageSize = (off - start) / pageSize := by
    unfold pageSize at *
    omega
  rw [this]

theorem chunk_cell {c : Chunk}
    (hb : ∀ i < c.numPages,∀ b < pageSize,bus (c.dmaAddr + i * pageSize + b) = pages.getD i 0 + b)
    (hs : start % pageSize = 0) (ho : start ≤ off) (hlt : off < start + c.numPages * pageSize) :
    bus (c.dmaAddr + (off - start)) = cellIn pages start off := by
  have hi : (off - start) / pageSize < c.numPages := by
    unfold pageSize at *
    omega
  have hc := hb _ hi (off % pageSize) (Nat.mod_lt _ (by decide))
  have ha : c.dmaAddr + (off - start) / pageSize * pageSize + off % pageSize = c.dmaAddr +
    (off - start) := by
    unfold pageSize at *
    omega
  rw [ha] at hc
  exact hc

theorem Sound.find_chunk (h : Sound bus w) (hn : n ≤ w.pages.length)
    (hc : cs = w.chunks.drop iter.index) (hb : Backed bus cs (w.pages.drop n))
    (hi : iter.offset = w.offset + n * pageSize) (ho : iter.offset ≤ off) (hlt : off < w.endOffset) :
    ∃ d,findChunk off cs iter = some d ∧ Found bus w off d := by
  have hal := h.aligned
  have he : w.endOffset = w.offset + w.pages.length * pageSize := by rw [Window.endOffset,h.pages]
  induction cs generalizing iter n with
  | nil =>
    have hl := drop_eq_nil_iff.mp hb
    unfold pageSize at *
    omega
  | cons c cs ih =>
    obtain ⟨hps,hda,hle,hcl,hr⟩ := hb
    rw [length_drop] at hle
    unfold findChunk
    by_cases hs : off < iter.offset + c.numPages * pageSize
    · rw [if_pos ⟨ho,hs⟩]
      refine ⟨_,rfl,?_⟩
      have ha' : iter.offset % pageSize = 0 := by
        unfold pageSize at *
        omega
      refine ⟨Nat.sub_pos_of_lt hs,?_,?_,?_,n,hn,hi,ho,?_⟩
      · dsimp only
        unfold pageSize at *
        omega
      · dsimp only
        unfold pageSize at *
        omega
      · intro k hk
        replace hk : k < iter.offset + c.numPages * pageSize - off := hk
        have hce : bus (c.dmaAddr + (off + k - iter.offset)) = cellIn
          (w.pages.drop n) iter.offset (off + k) :=
          chunk_cell hcl ha' (by omega) (by omega)
        have ha : c.dmaAddr + (off + k - iter.offset) = c.dmaAddr + (off - iter.offset) + k := by omega
        rw [ha,hi,cellIn_drop (by omega)] at hce
        rw [hi]
        exact hce
      · rw [← hc]
        exact ⟨hps,hda,by rwa [length_drop],hcl,hr⟩
    · rw [if_neg (fun hp => hs hp.2)]
      refine ih (n := n + c.numPages) (by omega) ?_ ?_ ?_ (not_lt.mp hs)
      · rw [← drop_drop,← hc]
        rfl
      · rw [← drop_drop]
        exact hr
      · rw [hi,add_mul,add_assoc]

theorem Backed.length_le (h : Backed bus cs pages) : cs.length ≤ pages.length := by
  induction cs generalizing pages with
  | nil => exact Nat.zero_le _
  | cons c cs ih =>
    obtain ⟨hp,_,hle,_,hr⟩ := h
    have := ih hr
    rw [length_drop] at this
    rw [length_cons]
    omega

theorem Backed.single (h : Backed bus cs pages) (hl : pages.length = cs.length)
    (hi : i < pages.length) : ∃ c,cs[i]? = some c ∧ c.dmaAddr % pageSize = 0 ∧
      ∀ b < pageSize,bus (c.dmaAddr + b) = pages.getD i 0 + b := by
  induction cs generalizing pages i with
  | nil =>
    rw [hl] at hi
    cases hi
  | cons d cs ih =>
    obtain ⟨hp,hda,hle,hcl,hr⟩ := h
    have hm := hr.length_le
    rw [length_drop] at hm
    rw [length_cons] at hl
    have ho : d.numPages = 1 := by omega
    cases i with
    | zero =>
      refine ⟨d,rfl,hda,?_⟩
      intro b hb
      simpa using hcl 0 hp b hb
    | succ i =>
      rw [ho] at hr
      obtain ⟨c,hc,ha,hb⟩ := ih hr (by rw [length_drop]; omega) (i := i)
        (by rw [length_drop]; omega)
      refine ⟨c,hc,ha,?_⟩
      intro b hlt
      rw [hb b hlt,getD_drop,add_comm 1 i]

theorem cell_in_page (ho : w.offset ≤ off) (ha : w.offset % pageSize = 0)
    (hk : off % pageSize + k < pageSize) :
    cell w (off + k) = w.pages.getD ((off - w.offset) / pageSize) 0 + off % pageSize + k := by
  have hp : (off + k - w.offset) / pageSize = (off - w.offset) / pageSize := by
    unfold pageSize at *
    omega
  have hr : (off + k) % pageSize = off % pageSize + k := by
    unfold pageSize at *
    omega
  rw [cell,cellIn,hp,hr,add_assoc]

theorem or_page_offset (ha : a % pageSize = 0) (hb : b < pageSize) : a ||| b = a + b := by
  have hd : a = (a / 2 ^ 12) <<< 12 := by
    unfold pageSize at ha
    omega
  rw [hd,← Nat.shiftLeft_add_eq_or_of_lt (by exact hb)]

theorem Sound.off_to_dma (h : Sound bus w) (hv : Valid bus w off iter) (ho : w.offset ≤ off)
    (hlt : off < w.endOffset) : ∃ d,scifOffToDmaAddr w off iter = some d ∧ Found bus w off d := by
  have hal := h.aligned
  have he : w.endOffset = w.offset + w.pages.length * pageSize := by rw [Window.endOffset,h.pages]
  unfold scifOffToDmaAddr
  split_ifs with hon
  · have hm : off % pageSize < pageSize := Nat.mod_lt _ (by decide)
    obtain ⟨c,hc,ha,hb⟩ := h.backed.single (h.pages.trans hon) (i := (off - w.offset) / pageSize)
      (by unfold pageSize at *; omega)
    simp only [hc]
    refine ⟨_,rfl,Nat.sub_pos_of_lt hm,?_,?_,?_,hv⟩
    · dsimp only
      unfold pageSize at *
      omega
    · dsimp only
      unfold pageSize at *
      omega
    · intro k hk
      replace hk : k < pageSize - off % pageSize := hk
      rw [or_page_offset ha hm,add_assoc,hb _ (by omega),cell_in_page ho hal (by omega),add_assoc]
  · obtain ⟨n,hn,hi,hle,hb⟩ := hv
    exact h.find_chunk hn rfl hb hi hle hlt

/-- The pointer leads to the cells of the window up to the end of the page. -/
def Leads (w : Window) (off : Nat) (p : Ptr) : Prop :=
  ∀ k,off % pageSize + k < pageSize → p k = cell w (off + k)

theorem Sound.local_va (h : Sound bus w) (hs : w.type = .self) (ho : w.offset ≤ off)
    (hlt : off < w.endOffset) : ∃ p,getLocalVa w off = some p ∧ Leads w off p := by
  have hal := h.aligned
  have hi : (off - w.offset) / pageSize < w.pages.length := by
    have he : w.endOffset = w.offset + w.pages.length * pageSize := by rw [Window.endOffset,h.pages]
    unfold pageSize at *
    omega
  unfold getLocalVa
  rw [if_pos hs,getElem?_eq_getElem hi]
  refine ⟨_,rfl,?_⟩
  intro k hk
  rw [cell_in_page ho hal hk,getD,getElem?_eq_getElem hi]
  rfl

theorem Found.leads (h : Found bus w off d) : Leads w off (fun k => bus (d.addr + k)) := by
  intro k hk
  have hps := h.pos
  have hp := h.page
  refine h.cells k ?_
  unfold pageSize at *
  omega

theorem Sound.ioremap (h : Sound node.bus w) (hv : Valid node.bus w off iter) (ho : w.offset ≤ off)
    (hlt : off < w.endOffset) :
    ∃ p it,ioremapRemote node w off iter = some (p,it) ∧ Leads w off p ∧ Valid node.bus w off it := by
  obtain ⟨d,hd,hf⟩ := h.off_to_dma hv ho hlt
  unfold ioremapRemote
  rw [hd]
  exact ⟨_,_,rfl,hf.leads,hf.valid⟩

theorem Sound.window_virt (h : Sound node.bus w) (hv : Valid node.bus w off iter)
    (ho : w.offset ≤ off) (hlt : off < w.endOffset) :
    ∃ p it,windowVirt node w off iter = some (p,it) ∧ Leads w off p ∧ Valid node.bus w off it := by
  unfold windowVirt
  cases ht : w.type with
  | self =>
    obtain ⟨p,hp,hl⟩ := h.local_va ht ho hlt
    simp only [hp]
    exact ⟨p,iter,rfl,hl,hv⟩
  | peer => exact h.ioremap hv ho hlt

/-- Windows whose offset ranges follow one another. -/
def Run (bus : Nat → Nat) : List Window → Prop
  | [] => True
  | w :: ws => Sound bus w ∧ 0 < w.nrPages ∧ (∀ v ∈ ws.head?,v.offset = w.endOffset) ∧ Run bus ws

/-- The memory cell of an offset of a run. -/
def cellAt : List Window → Nat → Nat
  | [],_ => 0
  | w :: ws,off => if off < w.endOffset then cell w off else cellAt ws off

def runEnd : Window → List Window → Nat
  | w,[] => w.endOffset
  | _,v :: vs => runEnd v vs

def bytes (c : Cursor) (k : Nat) : Nat := cellAt (c.window :: c.rest) (c.offset + k)

def limit (c : Cursor) : Nat := runEnd c.window c.rest

/-- The cursor stands in its window, or at its end. -/
structure At (bus : Nat → Nat) (c : Cursor) : Prop where
  run : Run bus (c.window :: c.rest)
  lower : c.window.offset ≤ c.offset
  upper : c.offset ≤ c.window.endOffset
  valid : Valid bus c.window c.offset c.iter

/-- The second cursor is `n` bytes further on in the same run. -/
structure Ahead (c d : Cursor) (n : Nat) : Prop where
  offset : d.offset = c.offset + n
  limit : limit d = limit c
  bytes : ∀ k,bytes d k = bytes c (n + k)

theorem Ahead.refl : Ahead c c 0 := ⟨rfl,rfl,fun k => by rw [zero_add]⟩

theorem Ahead.trans (h : Ahead c d m) (h' : Ahead d e n) (hl : m + n = l) : Ahead c e l where
  offset := by rw [h'.offset,h.offset,add_assoc,hl]
  limit := h'.limit.trans h.limit
  bytes := fun k => by rw [h'.bytes,h.bytes,← add_assoc,hl]

theorem Ahead.fits (h : Ahead c d n) (hf : c.offset + l ≤ WindowRun.limit c) (hl : n + m ≤ l) :
    d.offset + m ≤ WindowRun.limit d := by
  rw [h.offset,h.limit]
  omega

theorem At.sound (h : At bus c) : Sound bus c.window := h.run.1

theorem bytes_window (hk : c.offset + k < c.window.endOffset) :
    bytes c k = cell c.window (c.offset + k) := by
  unfold bytes cellAt
  rw [if_pos hk]

theorem Found.bytes (h : Found bus c.window c.offset d) (hk : k < d.nrBytes) :
    bus (d.addr + k) = bytes c k := by
  have hin := h.inside
  rw [h.cells k hk,bytes_window (by omega)]

theorem At.enter (h : At bus c) (hl : c.offset < limit c) :
    ∃ d,c.enter = some d ∧ At bus d ∧ Ahead c d 0 ∧ d.offset < d.window.endOffset := by
  unfold Cursor.enter
  split_ifs with he
  · cases hr : c.rest with
    | nil =>
      rw [limit,hr,runEnd] at hl
      omega
    | cons w ws =>
      obtain ⟨_,_,hn,hrn⟩ := h.run
      rw [hr] at hn hrn
      have hw : w.offset = c.offset := (hn w rfl).trans he.symm
      have hp := hrn.2.1
      have hen : c.offset < w.endOffset := by
        unfold Window.endOffset pageSize
        omega
      refine ⟨_,rfl,⟨hrn,le_of_eq hw,hen.le,hrn.1.valid_init (le_of_eq hw)⟩,?_,hen⟩
      refine ⟨rfl,?_,?_⟩
      · rw [limit,limit,hr,runEnd]
      · intro k
        show cellAt (w :: ws) (c.offset + k) = cellAt (c.window :: c.rest) (c.offset + (0 + k))
        rw [hr,zero_add]
        exact (if_neg (by omega)).symm
  · refine ⟨c,rfl,h,Ahead.refl,?_⟩
    have := h.upper
    omega

theorem At.advance (h : At bus c) (hv : Valid bus c.window c.offset iter)
    (hn : c.offset + n ≤ c.window.endOffset) :
    At bus (c.advance iter n) ∧ Ahead c (c.advance iter n) n := by
  refine ⟨⟨h.run,Nat.le_trans h.lower (Nat.le_add_right _ _),hn,hv.later
    (Nat.le_add_right _ _)⟩,⟨rfl,rfl,?_⟩⟩
  intro k
  show cellAt (c.window :: c.rest) (c.offset + n + k) = cellAt (c.window :: c.rest)
    (c.offset + (n + k))
  rw [add_assoc]

/-- A piece of `m` bytes does not leave the page. -/
def InPage (c : Cursor) (m : Nat) : Prop := c.offset % pageSize + m ≤ pageSize

theorem At.leads (h : At bus c) (hlt : c.offset < c.window.endOffset)
    (hp : Leads c.window c.offset p) (hm : InPage c m) (hk : k < m) : p k = bytes c k := by
  have hin : c.offset % pageSize + k < pageSize := (Nat.add_lt_add_left hk _).trans_le hm
  have hal := h.sound.aligned
  rw [hp k hin,bytes_window]
  unfold Window.endOffset pageSize at *
  omega

theorem Run.ends (h : Run bus (w :: ws)) : w.endOffset ≤ runEnd w ws ∧ runEnd w ws % pageSize = 0 := by
  induction ws generalizing w with
  | nil =>
    refine ⟨le_rfl,?_⟩
    have hal := h.1.aligned
    unfold runEnd Window.endOffset pageSize at *
    omega
  | cons v vs ih =>
    obtain ⟨_,_,hn,hr⟩ := h
    obtain ⟨hle,hm⟩ := ih hr
    refine ⟨le_trans ?_ hle,hm⟩
    rw [← hn v rfl]
    exact Nat.le_add_right _ _

end Mpss.Proofs.WindowRun
