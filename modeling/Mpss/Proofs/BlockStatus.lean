import Mpss.Mpssd.Virtio

namespace Mpss.Proofs.BlockStatus
open Mpssd.Virtio List

/-- From an index on, the buffer descriptors of a chain and the descriptor behind them. -/
inductive Buffers (t : Table) : Nat → List Desc → Desc → Prop
  | last {i : Nat} (stop : (t i).flag VRING_DESC_F_NEXT = false) : Buffers t i [] (t i)
  | more {i : Nat} {bufs : List Desc} {l : Desc} (go : (t i).flag VRING_DESC_F_NEXT = true)
      (tail : Buffers t (nextDesc (t i)) bufs l) : Buffers t i (t i :: bufs) l

def total (bufs : List Desc) : Nat := (bufs.map Desc.len).sum

def ranges : Nat → List Desc → List Iov
  | _,[] => []
  | fos,d :: bufs => ⟨fos,d.len⟩ :: ranges ((fos + d.len) % 2 ^ 64) bufs

@[simp] theorem ranges_length : (ranges fos bufs).length = bufs.length := by
  induction bufs generalizing fos with
  | nil => rfl
  | cons d bufs ih => simp [ranges,ih]

@[simp] theorem total_cons : total (d :: bufs) = d.len + total bufs := by simp [total]

variable {b : Backend} {r : Request} {last : Desc}

theorem nextDesc_go (h : d.flag VRING_DESC_F_NEXT = true) : nextDesc d = d.next := by simp [nextDesc,h]

theorem bufferElements_go (go : (t i).flag VRING_DESC_F_NEXT = true) :
    bufferElements t (fuel + 1) i fos =
      (⟨fos,(t i).len⟩ :: (bufferElements t fuel (nextDesc (t i)) ((fos + (t i).len) % 2 ^ 64)).1,
        (bufferElements t fuel (nextDesc (t i)) ((fos + (t i).len) % 2 ^ 64)).2) := by
  simp [bufferElements,go]

theorem Buffers.walked (h : Buffers t i bufs last) (hf : bufs.length < fuel) :
    bufferElements t fuel i fos = (ranges fos bufs,some last) := by
  induction h generalizing fuel fos with
  | last stop =>
    cases fuel with
    | zero => exact absurd hf (Nat.not_lt_zero _)
    | succ fuel => simp [bufferElements,stop,ranges]
  | more go tail ih =>
    cases fuel with
    | zero => exact absurd hf (Nat.not_lt_zero _)
    | succ fuel =>
      rw [bufferElements_go go,ih (Nat.lt_of_succ_lt_succ hf)]
      rfl

def bytes (iovs : List Iov) : List Nat := iovs.flatMap fun v => (List.range v.len).map (v.base + ·)

theorem bytes_ranges (h : fos + total bufs < 2 ^ 64) :
    bytes (ranges fos bufs) = (List.range (total bufs)).map (fos + ·) := by
  induction bufs generalizing fos with
  | nil => rfl
  | cons d bufs ih =>
    rw [total_cons] at h
    have hm : (fos + d.len) % 2 ^ 64 = fos + d.len := Nat.mod_eq_of_lt (by omega)
    have hlt : fos + d.len + total bufs < 2 ^ 64 := by omega
    have hr := ih hlt
    rw [total_cons,range_add,map_append,map_map]
    simp only [bytes,ranges,hm,flatMap_cons] at hr ⊢
    rw [hr]
    congr 1
    apply map_congr_left
    intro k _
    exact add_assoc _ _ _

/-- The type is known, the transfer moved every byte, and byte `k` is at offset `sector * 512 + k`
of the file. -/
structure Done (b : Backend) (r : Request) (bufs : List Desc) (s : Served) : Prop where
  supported : supported r.hdr.type = true
  succeeded : 0 ≤ r.transfer.ret
  moved : r.transfer.outLen = total bufs
  placed : ∃ iovs,s.handed = some iovs ∧ ∀ k < total bufs,
    (bytes iovs)[k]? = some (b.addr + (r.hdr.sector * SECTOR_SIZE + k)) ∧
    r.hdr.sector * SECTOR_SIZE + k < b.size

/-- Status 0 says that the request is done; a request that is not done gets another status. -/
structure Honest (b : Backend) (r : Request) (bufs : List Desc) (s : Served) : Prop where
  done : s.status = some 0 → Done b r bufs s
  failed : ¬ Done b r bufs s → ∃ n,n ≠ 0 ∧ s.status = some n

structure Accepted (r : Request) : Prop where
  header : (r.table r.head).len = 16 ∧ (r.table r.head).flag VRING_DESC_F_NEXT = true ∧
    (r.table r.head).flag VRING_DESC_F_WRITE = false
  read : 0 ≤ r.readHeader

/-- Nothing is wrong with a request and nothing goes wrong on its way. -/
structure Faultless (b : Backend) (r : Request) (bufs : List Desc) : Prop extends Accepted r where
  supported : supported r.hdr.type = true
  succeeded : 0 ≤ r.transfer.ret
  moved : r.transfer.outLen = total bufs
  inside : total bufs = 0 ∨ r.hdr.sector * SECTOR_SIZE + total bufs ≤ b.size

theorem headerErrorCheck_eq_zero : headerErrorCheck d = 0 ↔
    d.len = 16 ∧ d.flag VRING_DESC_F_NEXT = true ∧ d.flag VRING_DESC_F_WRITE = false := by
  have he : asByte (-eio) ≠ 0 := by decide
  unfold headerErrorCheck
  by_cases hl : d.len = 16 <;> cases d.flag VRING_DESC_F_NEXT <;> cases d.flag VRING_DESC_F_WRITE <;>
    simp [hl,he]

/-- A code other than 0 is overwritten by the result of the check. -/
theorem statusOf_eq_zero (hl : last.len = 1) :
    statusOf r last = 0 := by simp [statusOf,statusErrorCheck,hl]

theorem served (ha : Accepted r) (h : Buffers r.table (nextDesc (r.table r.head)) bufs last)
    (hf : bufs.length < fuel) : virtioBlock b r fuel =
      let iovs := ranges ((b.addr + r.hdr.sector * SECTOR_SIZE) % 2 ^ 64) bufs
      let kiovs := collect r.table fuel (nextDesc (r.table r.head))
      if supported r.hdr.type then ⟨iovs,some iovs,vopVirtioCopy kiovs.1 kiovs.2 iovs,some
        (statusOf r last)⟩
      else ⟨iovs,none,[],some (statusOf r last)⟩ := by
  unfold virtioBlock
  simp only [headerErrorCheck_eq_zero.mpr ha.header,h.walked hf,ne_eq,not_true_eq_false,if_false]
  rw [if_neg (not_lt.mpr ha.read)]

theorem refused (ha : ¬ Accepted r) : virtioBlock b r fuel = nothing := by
  unfold virtioBlock
  by_cases hh : headerErrorCheck (r.table r.head) = 0
  · have hr : r.readHeader < 0 := not_le.mp fun hr => ha ⟨headerErrorCheck_eq_zero.mp hh,hr⟩
    simp [hh,hr]
  · simp [hh]

/-- Ranges that stay inside the image name the bytes of the file in their order. -/
theorem placed_iff :
    (∀ k < total bufs,
      (bytes (ranges ((b.addr + r.hdr.sector * SECTOR_SIZE) % 2 ^ 64) bufs))[k]? =
          some (b.addr + (r.hdr.sector * SECTOR_SIZE + k)) ∧ r.hdr.sector * SECTOR_SIZE + k < b.size) ↔
      total bufs = 0 ∨ r.hdr.sector * SECTOR_SIZE + total bufs ≤ b.size := by
  constructor
  · intro h
    rcases Nat.eq_zero_or_pos (total bufs) with hz | hp
    · exact .inl hz
    · obtain ⟨_,hl⟩ := h (total bufs - 1) (by omega)
      exact .inr (by omega)
  · intro h k hk
    have hf := b.fits
    have hfs : (b.addr + r.hdr.sector * SECTOR_SIZE) % 2 ^ 64 = b.addr + r.hdr.sector * SECTOR_SIZE :=
      Nat.mod_eq_of_lt (by omega)
    rw [hfs,bytes_ranges (by omega)]
    refine ⟨?_,by omega⟩
    simp [hk,add_assoc]

/-- A request gets the status that it deserves exactly if it has no fault. -/
theorem status_honest_iff (h : Buffers r.table (nextDesc (r.table r.head)) bufs last)
    (hlen : last.len = 1)
    (hfuel : bufs.length < fuel) : Honest b r bufs (virtioBlock b r fuel) ↔ Faultless b r bufs := by
  by_cases ha : Accepted r
  · rw [served ha h hfuel]
    constructor
    · intro hh
      have hd := hh.done (by split <;> simp [statusOf_eq_zero hlen])
      have hsu := hd.supported
      obtain ⟨iovs,hi,hp⟩ := hd.placed
      simp only [hsu,if_true,Option.some.injEq] at hi
      subst hi
      exact ⟨ha,hsu,hd.succeeded,hd.moved,placed_iff.mp hp⟩
    · intro hok
      have hd : ∀ s : Served,s.handed = some (ranges
          ((b.addr + r.hdr.sector * SECTOR_SIZE) % 2 ^ 64) bufs) →
          Done b r bufs s := fun _ hs =>
        ⟨hok.supported,hok.succeeded,hok.moved,_,hs,placed_iff.mpr hok.inside⟩
      simp only [hok.supported,if_true]
      exact ⟨fun _ => hd _ rfl,fun hn => absurd (hd _ rfl) hn⟩
  · rw [refused ha]
    refine ⟨fun hh => ?_,fun hok => absurd hok.toAccepted ha⟩
    have hn : ¬ Done b r bufs nothing := by
      intro hd
      obtain ⟨_,hi,_⟩ := hd.placed
      cases hi
    obtain ⟨_,_,hst⟩ := hh.failed hn
    cases hst

def readTable : Table := fun i => if i = 0 then ⟨16,1,1⟩ else if i = 1 then ⟨512,3,2⟩ else ⟨1,2,0⟩

def image : Backend := ⟨4096,1024,true,by decide⟩

theorem read_of_second_sector_honest : Honest image ⟨readTable,0,⟨0,1⟩,0,⟨0,512⟩⟩ [readTable 1]
    (virtioBlock image ⟨readTable,0,⟨0,1⟩,0,⟨0,512⟩⟩ 3) :=
  (status_honest_iff (.more rfl (.last rfl)) rfl (by decide)).mpr
    ⟨⟨by decide,by decide⟩,by decide,by decide,by decide,by decide⟩

/-- A flush, which is not supported, and a read whose transfer failed get status 0. -/
theorem failed_requests_succeed :
    ¬ Honest image ⟨readTable,0,⟨4,0⟩,0,⟨0,512⟩⟩ [readTable 1]
    (virtioBlock image ⟨readTable,0,⟨4,0⟩,0,⟨0,512⟩⟩ 3) ∧
    ¬ Honest image ⟨readTable,0,⟨0,0⟩,0,⟨-5,0⟩⟩ [readTable 1]
    (virtioBlock image ⟨readTable,0,⟨0,0⟩,0,⟨-5,0⟩⟩ 3) :=
  ⟨fun h => absurd (h.done rfl).supported (by decide),fun h => absurd
    (h.done rfl).succeeded (by decide)⟩

end Mpss.Proofs.BlockStatus
