import Mathlib.Algebra.Order.Ring.Int

namespace Mpss.Library.Rows

def Row (p : Nat → Prop) (i n : Nat) : Prop := ∀ j < n,p (i + j)

/-- A search for `n` indices in a row has come to `i` and counts the last `k`. -/
structure Counted (p : Nat → Prop) (n i k : Nat) : Prop where
  le : k ≤ i
  row : Row p (i - k) k
  before : k = i ∨ ¬ p (i - k - 1)
  none : 0 < n → ∀ s,s + n ≤ i → ¬ Row p s n

theorem Counted.start (p : Nat → Prop) (n : Nat) : Counted p n 0 0 :=
  ⟨le_rfl,fun _ hj => absurd hj (Nat.not_lt_zero _),.inl rfl,fun hn s hs => by omega⟩

section
variable (h : Counted p n i k)
include h

theorem Counted.lt (hn : 0 < n) : k < n := by
  by_contra hk
  have hle := h.le
  refine h.none hn (i - n) (by omega) (fun j hj => ?_)
  have hp := h.row (k - n + j) (by omega)
  rwa [show i - k + (k - n + j) = i - n + j by omega] at hp

theorem Counted.grown (hp : p i) : Row p (i - k) (k + 1) :=
  Nat.forall_lt_succ_right.mpr ⟨h.row,by rwa [Nat.sub_add_cancel h.le]⟩

theorem Counted.hit (hp : p i) (hk : k + 1 ≠ n) : Counted p n (i + 1) (k + 1) := by
  have hi : i + 1 - (k + 1) = i - k := by omega
  refine ⟨Nat.succ_le_succ h.le,hi ▸ h.grown hp,hi ▸ h.before.imp_left (congrArg (· + 1)),
    fun hn s hs hr => ?_⟩
  have hlt := h.lt hn
  by_cases hle : s + n ≤ i
  · exact h.none hn s hle hr
  rcases h.before with hb | hb
  · omega
  · have := hr (i - k - 1 - s) (by omega)
    rw [Nat.add_sub_cancel' (by omega)] at this
    exact hb this

theorem Counted.miss (hp : ¬ p i) : Counted p n (i + 1) 0 := by
  refine ⟨Nat.zero_le _,fun _ hj => absurd hj (Nat.not_lt_zero _),.inr hp,fun hn s hs hr => ?_⟩
  by_cases hle : s + n ≤ i
  · exact h.none hn s hle hr
  · have := hr (i - s) (by omega)
    rw [Nat.add_sub_cancel' (by omega)] at this
    exact hp this

end

/-- A slot of a table that maps an address range of fixed size, and its references. -/
structure Slot where
  dmaAddr : Nat
  refCount : Int

inductive Search
  | found (i : Nat)
  | notFound
  | exhausted

variable (stride : Nat) (e : Nat → Slot) (entries : Int)

/-- A search with `n` indices left, for slots that already hold the range: `ae` slots so far do. -/
def findExisting (i : Nat) (ae : Int) (addr : Nat) : Nat → Search
  | 0 => .exhausted
  | n + 1 =>
    if (e i).dmaAddr = addr then
      if ae + 1 = entries then .found i else findExisting (i + 1) (ae + 1) (addr + stride) n
    else if ae ≠ 0 then .notFound
    else if ae = entries then .found i
    else findExisting (i + 1) ae addr n

/-- A search for enough free slots in a row, of which `ae` are counted. -/
def findFree (i : Nat) (ae : Int) : Nat → Search
  | 0 => .exhausted
  | n + 1 =>
    let ae := if (e i).refCount = 0 then ae + 1 else 0
    if ae = entries then .found i else findFree (i + 1) ae n

variable (limit start : Nat)

/-- The last of the slots for a range, from a table of `limit`. -/
def findEntries : Option Nat :=
  match findExisting stride e entries 0 0 start limit with
  | .found i => some i
  | .notFound => none
  | .exhausted =>
    match findFree e entries 0 0 limit with
    | .found i => some i
    | _ => none

/-- Slots a range may use: each is free or already holds its address. -/
def Suitable (i n : Nat) : Prop :=
  ∀ j < n,(e (i + j)).refCount = 0 ∨ (e (i + j)).dmaAddr = start + j * stride

def Held (i n : Nat) : Prop := ∀ j < n,(e (i + j)).dmaAddr = start + j * stride

def Free (i n : Nat) : Prop := ∀ j < n,(e (i + j)).refCount = 0

def First (i : Nat) : Prop := (e i).dmaAddr = start ∧ ∀ j < i,(e j).dmaAddr ≠ start

/-- What the first loop finds in a table of `limit` slots, of which `i` holds the start. -/
def ExistingOf (i : Nat) : Search → Prop
  | .found k =>
    (k : Int) = i + entries - 1 ∧ 0 < entries ∧ k < limit ∧ Held stride e start i entries.toNat
  | .notFound => ∃ b,i + b < limit ∧ (e (i + b)).dmaAddr ≠ start + b * stride ∧
      (0 < entries → b < entries)
  | .exhausted => Held stride e start i (limit - i) ∧ (0 < entries → limit < i + entries)

variable {stride e entries limit start}

theorem existing_run (ae : Nat) (hae : 0 < ae ∨ (e i).dmaAddr = start)
    (hc : entries ≤ 0 ∨ ae < entries) (hh : Held stride e start i ae) (hl : i + ae + n = limit) :
    ExistingOf stride e entries limit start i (findExisting stride e entries (i + ae) ae
    (start + ae * stride) n) := by
  induction n generalizing ae with
  | zero =>
    have hn : limit - i = ae := by omega
    exact ⟨hn ▸ hh,by omega⟩
  | succ n ih =>
    rw [findExisting]
    by_cases hd : (e (i + ae)).dmaAddr = start + ae * stride
    · have hh' : Held stride e start i (ae + 1) := Nat.forall_lt_succ_right.mpr ⟨hh,hd⟩
      rw [if_pos hd]
      split_ifs with he
      · have hn : entries.toNat = ae + 1 := by omega
        exact ⟨by omega,by omega,by omega,hn ▸ hh'⟩
      · have hr := ih (ae + 1) (by omega) (by omega) hh' (by omega)
        rw [add_mul,one_mul,← add_assoc start] at hr
        exact_mod_cast hr
    · have hz : ae ≠ 0 := by
        rintro rfl
        rcases hae with h0 | h0
        · omega
        · exact hd (by simpa using h0)
      rw [if_neg hd,if_pos (by omega)]
      exact ⟨ae,by omega,hd,by omega⟩

theorem existing_scan (i : Nat) (hne : entries ≠ 0) (hp : ∀ j < i,(e j).dmaAddr ≠ start)
    (hl : i + n = limit) :
    (∃ s < limit,First e start s ∧ ExistingOf stride e entries limit start s
    (findExisting stride e entries i 0 start n)) ∨
    findExisting stride e entries i 0 start n = .exhausted ∧ ∀ s < limit,¬ First e start s := by
  induction n generalizing i with
  | zero => exact .inr ⟨rfl,fun s hs hf => hp s (by omega) hf.1⟩
  | succ n ih =>
    by_cases hd : (e i).dmaAddr = start
    · have hc : entries ≤ 0 ∨ (0 : Nat) < entries := by omega
      have hh : Held stride e start i 0 := fun _ hj => absurd hj (Nat.not_lt_zero _)
      have hr := existing_run 0 (.inr hd) hc hh hl
      rw [zero_mul] at hr
      exact .inl ⟨i,by omega,⟨hd,hp⟩,hr⟩
    · have hst : findExisting stride e entries i 0 start (n + 1) = findExisting stride e entries
        (i + 1) 0 start n := by
        rw [findExisting,if_neg hd,if_neg (not_not_intro rfl),if_neg (Ne.symm hne)]
      rw [hst]
      exact ih (i + 1) (Nat.forall_lt_succ_right.mpr ⟨hp,hd⟩) (by omega)

/-- What the second loop finds: the first run of free slots. -/
def FreeOf (e : Nat → Slot) (entries : Int) (limit : Nat) : Search → Prop
  | .found k => 0 < entries ∧ k < limit ∧ entries ≤ k + 1 ∧
      Free e (k + 1 - entries.toNat) entries.toNat ∧ ∀ s,s + entries.toNat ≤ k →
      ¬ Free e s entries.toNat
  | .notFound => False
  | .exhausted => 0 < entries → ∀ s,s + entries.toNat ≤ limit → ¬ Free e s entries.toNat

theorem free_scan (hne : entries ≠ 0) (h : Counted (fun i => (e i).refCount = 0) entries.toNat i ae)
    (hl : i + n = limit) : FreeOf e entries limit (findFree e entries i ae n) := by
  induction n generalizing i ae with
  | zero =>
    obtain rfl : i = limit := hl
    exact fun hp => h.none (by omega)
  | succ n ih =>
    rw [findFree]
    by_cases hz : (e i).refCount = 0
    · simp only [hz,if_true]
      split_ifs with he
      · have hn : entries.toNat = ae + 1 := by omega
        have hi : i + 1 - entries.toNat = i - ae := by omega
        have hle := h.le
        exact ⟨by omega,by omega,by omega,hi ▸ hn ▸ h.grown hz,h.none (by omega)⟩
      · exact ih (h.hit hz (by omega)) (by omega)
    · simp only [hz,if_false]
      rw [if_neg hne.symm]
      exact ih (h.miss hz) (by omega)

/-- The slots taken from `i` on: the first one that holds the start is followed by the others, or
holds no more than the end of the table and they are free. -/
structure Taken (stride : Nat) (e : Nat → Slot) (entries : Int) (limit start i : Nat) : Prop where
  pos : 0 < entries
  fits : i + entries ≤ limit
  which : First e start i ∧ Held stride e start i entries.toNat ∨
    (∀ s < limit,First e start s → Held stride e start s (limit - s) ∧ limit < s + entries) ∧
    Free e i entries.toNat ∧ ∀ s < i,¬ Free e s entries.toNat

theorem First.unique (h : First e start s) (h' : First e start s') : s = s' :=
  le_antisymm (not_lt.mp fun hlt => h.2 s' hlt h'.1) (not_lt.mp fun hlt => h'.2 s hlt h.1)

def Finds (stride : Nat) (e : Nat → Slot) (entries : Int) (limit start : Nat) : Option Nat → Prop
  | some k => entries ≤ k + 1 ∧ Taken stride e entries limit start (k - entries + 1).toNat
  | none => ∀ i,¬ Taken stride e entries limit start i

theorem free_entries (hne : entries ≠ 0)
    (hx : findExisting stride e entries 0 0 start limit = .exhausted)
    (ha : 0 < entries → ∀ s < limit,First e start s → Held stride e start s (limit - s) ∧
    limit < s + entries) :
    Finds stride e entries limit start (findEntries stride e entries limit start) := by
  unfold findEntries
  rw [hx]
  have hx : FreeOf e entries limit (findFree e entries 0 0 limit) :=
    free_scan hne (.start _ _) (zero_add _)
  cases hr : findFree e entries 0 0 limit with
  | found k =>
    rw [hr] at hx
    obtain ⟨hp,hlt,hle,hf,hno⟩ := hx
    have hsp : ((k : Int) - entries + 1).toNat = k + 1 - entries.toNat := by omega
    refine ⟨hle,hp,by omega,.inr ⟨ha hp,hsp ▸ hf,?_⟩⟩
    intro s hs
    exact hno s (by omega)
  | notFound =>
    rw [hr] at hx
    exact hx.elim
  | exhausted =>
    rw [hr] at hx
    intro spt ht
    have hft := ht.fits
    have hp := ht.pos
    rcases ht.which with ⟨hf,_⟩ | ⟨_,hf,_⟩
    · have := (ha hp spt (by omega) hf).2
      omega
    · exact hx hp spt (by omega) hf

theorem find_entries (stride : Nat) (e : Nat → Slot) (limit start : Nat) (hne : entries ≠ 0) :
    Finds stride e entries limit start (findEntries stride e entries limit start) := by
  rcases existing_scan 0 hne (by omega) (zero_add limit) with ⟨s,hs,hf,hx⟩ | ⟨hx,hn⟩
  · cases hr : findExisting stride e entries 0 0 start limit with
    | found k =>
      rw [hr] at hx
      obtain ⟨hk,hp,hlt,hh⟩ := hx
      have hsp : ((k : Int) - entries + 1).toNat = s := by omega
      rw [findEntries,hr]
      refine ⟨by omega,hp,by omega,.inl ?_⟩
      rw [hsp]
      exact ⟨hf,hh⟩
    | notFound =>
      rw [hr] at hx
      obtain ⟨b,hb,hd,hlt⟩ := hx
      rw [findEntries,hr]
      intro spt ht
      rcases ht.which with ⟨hf',hh⟩ | ⟨ha,_⟩
      · cases hf.unique hf'
        have := hlt ht.pos
        exact hd (hh b (by omega))
      · exact hd ((ha s hs hf).1 b (by omega))
    | exhausted =>
      rw [hr] at hx
      apply free_entries hne hr
      intro hp s' _ hf'
      cases hf.unique hf'
      exact ⟨hx.1,hx.2 hp⟩
  · exact free_entries hne hx (fun _ s hs hf => absurd hf (hn s hs))

theorem Taken.suitable (h : Taken stride e entries limit start i) :
    Suitable stride e start i entries.toNat := by
  intro j hj
  rcases h.which with ⟨_,hh⟩ | ⟨_,hf,_⟩
  · exact .inr (hh j hj)
  · exact .inl (hf j hj)

theorem Taken.unique (h : Taken stride e entries limit start s)
    (h' : Taken stride e entries limit start s') : s = s' := by
  have hft := h.fits
  have hft' := h'.fits
  have hp := h.pos
  rcases h.which with ⟨hf,_⟩ | ⟨ha,hf,hno⟩
  · rcases h'.which with ⟨hf',_⟩ | ⟨ha',_,_⟩
    · exact hf.unique hf'
    · have := (ha' s (by omega) hf).2
      omega
  · rcases h'.which with ⟨hf',_⟩ | ⟨_,hf',hn'⟩
    · have := (ha s' (by omega) hf').2
      omega
    · exact le_antisymm (not_lt.mp fun hlt => hno s' hlt hf') (not_lt.mp fun hlt => hn' s hlt hf)

end Mpss.Library.Rows
