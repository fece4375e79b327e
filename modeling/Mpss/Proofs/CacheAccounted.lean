import Mpss.Library.Runs
import Mpss.Scif.TempCache

namespace Mpss.Proofs.CacheAccounted
open Library.Runs Scif.Window Scif.TempCache List Option

/-- The accounting of the cached windows. -/
structure Accounted (limit : Nat) (s : Cache) : Prop where
  refcount : s.tcwRefcount = s.live.length
  pages : s.tcwTotalPages = (s.live.map (·.nrPages)).sum
  reachable : ∀ w ∈ s.live,(∃ m ∈ s.mmnList,w ∈ m.tcRegList) ∨ w ∈ s.rmaTc
  queued : s.warned = 0 ∧ ∀ w ∈ s.rma ++ s.rmaTc,∀ m ∈ s.mmnList,w ∉ m.tcRegList
  bounded : s.tcwTotalPages ≤ limit

/-- No call with SCIF_RMA_USECACHE whose pages can be pinned is longer than the limit. -/
def Allowed (limit : Nat) (_ : Cache) : Act → Prop
  | .copy c => c.usecache = true → (∃ prot,c.pinned = .ok prot) → c.len >>> pageShift ≤ limit
  | _ => True

structure Inv (s : Cache) : Prop where
  live : s.live = []
  lists : ∀ m ∈ s.mmnList,m.tcRegList = []
  rmaTc : s.rmaTc = []
  refcount : s.tcwRefcount = 0
  pages : s.tcwTotalPages = 0
  warned : s.warned = 0
  ids : ∀ w ∈ s.rma,w.id < s.nextId

theorem Inv.init : Inv Cache.init where
  live := rfl
  lists := fun _ hm => nomatch hm
  rmaTc := rfl
  refcount := rfl
  pages := rfl
  warned := rfl
  ids := fun _ hw => nomatch hw

theorem query_nil : scifQueryTcw [] req = .miss req none := ite_self _

theorem register_temp_ok (hr : scifRegisterTemp s req pinned = .ok w) :
    w.id = s.nextId ∧ ∃ prot,pinned = .ok prot := by
  unfold scifRegisterTemp at hr
  simp only at hr
  split at hr
  · cases hr
  cases hp : pinned with
  | error err =>
    rw [hp] at hr
    cases hr
  | ok prot =>
    rw [hp] at hr
    cases hr
    exact ⟨rfl,prot,rfl⟩

section
variable (h : Inv s)
include h

theorem Inv.accounted : Accounted limit s where
  refcount := by rw [h.refcount,h.live]; rfl
  pages := by rw [h.pages,h.live]; rfl
  reachable := by
    intro w hw
    rw [h.live] at hw
    cases hw
  queued := by
    refine ⟨h.warned,?_⟩
    intro w _ m hm hw
    rw [h.lists m hm] at hw
    cases hw
  bounded := h.pages ▸ Int.natCast_nonneg limit

theorem Inv.destroyTcw (hm : mmn ∈ s.mmnList) : scifRmaDestroyTcw s mmn start len = s := by
  unfold scifRmaDestroyTcw
  rw [h.lists mmn hm]
  exact ite_self s

theorem Inv.destroyTcwInvalid : scifRmaDestroyTcwInvalid s = s := by
  unfold scifRmaDestroyTcwInvalid
  rw [h.rmaTc]
  show { s with rmaTc := [] } = s
  rw [← h.rmaTc]

theorem Inv.destroyTcwEp : scifRmaDestroyTcwEp s = s := by
  have key : ∀ l : List MmuNotif,(∀ m ∈ l,m ∈ s.mmnList) →
      l.foldl (fun t mmn => scifRmaDestroyTcw t mmn 0 ulongMax) s = s := by
    intro l hl
    induction l with
    | nil => rfl
    | cons m l ih =>
      rw [foldl_cons,h.destroyTcw (hl m mem_cons_self)]
      exact ih (forall_mem_cons.mp hl).2
  exact key s.mmnList (fun _ hm => hm)

theorem Inv.can_cache : scifRmaTcCanCache limit s len = (decide (len >>> pageShift ≤ limit),s) := by
  unfold scifRmaTcCanCache
  simp only
  split
  · rename_i hlt
    rw [decide_eq_false (not_le.mpr hlt)]
  · rename_i hle
    rw [decide_eq_true (not_lt.mp hle),h.destroyTcwInvalid,h.destroyTcwEp,ite_self]

theorem Inv.addNotifier : Inv (scifAddMmuNotifier s mm ok) := by
  unfold scifAddMmuNotifier
  split
  · refine { h with lists := ?_ }
    intro m hm
    rcases mem_cons.mp hm with rfl | hm
    · rfl
    · exact h.lists m hm
  · exact h

theorem Inv.choose (hc : chooseCache limit s c = (mmn,cache,t)) :
    Inv t ∧ cache = (c.usecache && decide (limit < c.len >>> pageShift)) := by
  unfold chooseCache at hc
  cases hu : c.usecache with
  | false =>
    rw [hu] at hc
    cases hc
    exact ⟨h,rfl⟩
  | true =>
    have ht : Inv (if (scifFindMmuNotifier s c.mm).isNone then scifAddMmuNotifier s c.mm
      c.notifier else s) := by
      split
      · exact h.addNotifier
      · exact h
    simp only [hu,if_true,ht.can_cache,Prod.mk.injEq] at hc
    obtain ⟨_,rfl,rfl⟩ := hc
    refine ⟨ht,?_⟩
    rw [Bool.true_and,← decide_not]
    exact decide_eq_decide.mpr not_le

theorem Inv.query : queryCached s mmn req = .miss req none := by
  unfold queryCached
  cases hm : mmn.bind (fun mmn => scifFindMmuNotifier s mmn.mm) with
  | none => rfl
  | some m =>
    obtain ⟨n,_,hn⟩ := bind_eq_some_iff.mp hm
    simp only [h.lists m (mem_of_find?_eq_some hn)]
    exact query_nil

theorem Inv.local_error (hr : scifRegisterTemp s c.req c.pinned = .error err) :
    localWindow s c mmn cache = (.error err,s) := by
  unfold localWindow
  simp [h.query,hr]

theorem Inv.local_ok (hr : scifRegisterTemp s c.req c.pinned = .ok w) :
    localWindow s c mmn cache =
      (.ok w,if cache then cacheWindow { s with nextId := s.nextId + 1 } mmn w
        else { s with nextId := s.nextId + 1 }) := by
  unfold localWindow
  simp [h.query,hr]

theorem Inv.create : Inv { s with nextId := s.nextId + 1 } :=
  { h with ids := fun w hw => Nat.lt_succ_of_lt (h.ids w hw) }

theorem Inv.queue (hw : w.id = s.nextId) :
    Inv (scifQueueForCleanup { s with
      nextId := s.nextId + 1,twRefcount := s.twRefcount + 1 } w .rma) := by
  have ho : Cache.onList { s with nextId := s.nextId + 1,twRefcount := s.twRefcount + 1 }
    w = false := by
    have hmm : s.mmnList.any (fun m => m.tcRegList.any (fun v => v.id = w.id)) = false := by
      refine any_eq_false.mpr ?_
      intro m hm
      rw [h.lists m hm]
      exact Bool.false_ne_true
    have hr : s.rma.any (fun v => v.id = w.id) = false := by
      refine any_eq_false.mpr ?_
      intro v hv he
      have := h.ids v hv
      have := of_decide_eq_true he
      omega
    simp [Cache.onList,hmm,hr,h.rmaTc]
  unfold scifQueueForCleanup
  rw [ho]
  refine { h.create with ids := ?_ }
  intro v hv
  rcases mem_append.mp hv with hv | hv
  · exact Nat.lt_succ_of_lt (h.ids v hv)
  · rw [mem_singleton.mp hv,hw]
    exact Nat.lt_succ_self _

theorem Inv.copy (ha : Allowed limit s (.copy c)) : Inv (scifRmaCopy limit s c).2 := by
  rcases hc : chooseCache limit s c with ⟨mmn,cache,t⟩
  obtain ⟨ht,hcc⟩ := h.choose hc
  unfold scifRmaCopy
  simp only [hc]
  split
  · exact h
  cases hr : scifRegisterTemp t c.req c.pinned with
  | error err =>
    rw [ht.local_error hr]
    exact ht
  | ok w =>
    rw [ht.local_ok hr]
    obtain ⟨hid,hp⟩ := register_temp_ok hr
    have hno : cache = false := by
      rw [hcc]
      cases hu : c.usecache with
      | false => rfl
      | true => exact decide_eq_false (not_lt.mpr (ha hu hp))
    simp only [hno,useWindow,Bool.false_eq_true,if_false]
    split
    · have hcr := ht.create
      refine { hcr with live := ?_ }
      rw [ht.live]
      rfl
    · exact ht.queue hid

theorem Inv.destroyWindows : Inv (scifRmaDestroyWindows s) := by
  have key : ∀ (l : List TempWindow) (t : Cache),Inv t →
      Inv (l.foldl (fun t w => { scifDestroyWindow t w with twRefcount := t.twRefcount - 1 }) t) := by
    intro l
    induction l with
    | nil => exact fun t ht => ht
    | cons w l ih =>
      intro t ht
      refine ih _ { ht with live := ?_ }
      show without w t.live = []
      rw [ht.live]
      rfl
  exact key s.rma _ { h with ids := fun w hw => nomatch hw }

theorem Inv.step (ha : Allowed limit s a) (hr : s.step limit a = some t) : Inv t := by
  cases a with
  | copy c => exact of_unless hr (fun _ => h.copy ha)
  | destroyTcw mm start len =>
    unfold Cache.step at hr
    simp only at hr
    split at hr
    · rename_i mmn hm
      rw [h.destroyTcw (mem_of_find?_eq_some hm)] at hr
      cases hr
      exact h
    · cases hr
  | destroyWindows =>
    cases hr
    exact h.destroyWindows
  | destroyTcwInvalid =>
    cases hr
    rw [h.destroyTcwInvalid]
    exact h

end

variable {c : Copy}

theorem page_align (hn : n < 2 ^ 63) : pageAlign n = (n + 4095) / 4096 * 4096 := by
  unfold pageAlign u64
  omega

theorem request_pages (hl : c.len < 2 ^ 42) :
    pageAlign c.req.nrBytes = (c.len + c.addr % 4096 + 4095) / 4096 * 4096 := by
  have hln : u64 (c.len + c.addr % 4096) = c.len + c.addr % 4096 := by
    unfold u64
    omega
  have hr : c.req.nrBytes = (c.len + c.addr % 4096 + 4095) / 4096 * 4096 := by
    show pageAlign (u64 (c.len + c.addr % 4096)) = _
    rw [hln,page_align (by omega)]
  rw [hr,page_align (by omega)]
  omega

theorem register_pages (hl : c.len < 2 ^ 42) (hp : c.pinned = .ok prot)
    (hln : n < c.len >>> pageShift) :
    ∃ w,scifRegisterTemp s c.req c.pinned = .ok w ∧ (n : Int) < w.nrPages := by
  rw [pageShift,Nat.shiftRight_eq_div_pow] at hln
  unfold scifRegisterTemp
  simp only [request_pages hl,hp]
  rw [if_neg (by omega)]
  refine ⟨_,rfl,?_⟩
  simp only [pageShift,Nat.shiftRight_eq_div_pow,toInt32]
  omega

theorem usecache_flags (h : c.usecache = true) : ¬ (c.flags ≠ 0 ∧ c.flags &&& 0xF = 0) := by
  rintro ⟨_,h0⟩
  have hu : c.flags &&& 2 = 0 := by
    have : c.flags &&& 2 = (c.flags &&& 0xF) &&& 2 := by
      rw [Nat.and_assoc]
      rfl
    rw [this,h0]
    rfl
  exact absurd hu (of_decide_eq_true h)

theorem cacheWindow_pages : (cacheWindow s mmn w).tcwTotalPages = s.tcwTotalPages + w.nrPages := by
  cases mmn with
  | none | some mmn => rfl

theorem Inv.exceeded (h : Inv s) (ha : ¬ Allowed limit s (.copy c)) (hl : c.len < 2 ^ 42) :
    limit < (scifRmaCopy limit s c).2.tcwTotalPages := by
  obtain ⟨hu,hn⟩ := Classical.not_imp.mp ha
  obtain ⟨⟨prot,hp⟩,hln⟩ := Classical.not_imp.mp hn
  rw [not_le] at hln
  rcases hc : chooseCache limit s c with ⟨mmn,cache,t⟩
  obtain ⟨ht,hcc⟩ := h.choose hc
  obtain ⟨w,hr,hw⟩ : ∃ w,scifRegisterTemp t c.req c.pinned = .ok w ∧ (limit : Int) < w.nrPages :=
    register_pages hl hp hln
  have hy : cache = true := by
    rw [hcc,hu,decide_eq_true hln]
    rfl
  have hf : (scifRmaCopy limit s c).2 = cacheWindow { t with nextId := t.nextId + 1 } mmn w := by
    unfold scifRmaCopy
    rw [if_neg (usecache_flags hu)]
    simp only [hc,ht.local_ok hr,hy,useWindow,if_true]
    split
    all_goals rfl
  rw [hf,cacheWindow_pages,ht.pages,zero_add]
  exact hw

/-- In runs of allowed steps the accounting is right, and a call of less than 4 TiB that is not
allowed breaks it. -/
theorem cache_accounted (limit : Nat) (as : List Act) (s : Cache)
    (ha : Along (Cache.step limit) (Allowed limit) Cache.init as)
    (hr : exec (Cache.step limit) Cache.init as = some s) :
    Accounted limit s ∧
      ∀ c t,¬ Allowed limit s (.copy c) → c.len < 2 ^ 42 → s.step limit (.copy c) = some t →
        ¬ Accounted limit t := by
  have h : Inv s := exec_invariant (fun _ _ _ hi hok hs => Inv.step hi hok hs) Inv.init ha hr
  refine ⟨h.accounted,?_⟩
  intro c t hc hl ht hac
  obtain ⟨_,ht⟩ := ite_none_left_eq_some.mp ht
  cases ht
  exact Int.not_le.mpr (h.exceeded hc hl) hac.bounded

def copyPage : Copy :=
  { mm := 1,addr := 0x10000,len := 4096,flags := scifRmaUsecache,dir := .localToRemote
    notifier := true,pinned := .ok 3,remoteErr := 0,copyErr := 0 }

def copyPages : List Act := [.copy copyPage,.copy copyPage,.destroyTcw 1 0x10000 4096,.destroyWindows]

theorem page_copies_accounted :
    ∃ s,exec (Cache.step scifRmaTempCacheLimit) Cache.init copyPages = some s ∧
      Accounted scifRmaTempCacheLimit s := by
  have hc : ∀ s,Allowed scifRmaTempCacheLimit s (.copy copyPage) := fun _ _ _ => by decide
  refine ⟨_,rfl,(cache_accounted scifRmaTempCacheLimit copyPages _ ?_ rfl).1⟩
  refine Along.cons (hc _) rfl (Along.cons (hc _) rfl ?_)
  iterate 2 refine Along.cons trivial rfl ?_
  trivial

/-- A call of one page more than the limit is cached: the pages exceed the limit, and no list
leads to the window. -/
theorem long_copy_exceeds_limit :
    ∃ s,exec (Cache.step scifRmaTempCacheLimit) Cache.init
        [.copy { copyPage with len := 4096 * 0x20001 }] = some s ∧
      s.tcwTotalPages = 0x20001 ∧ s.live.length = 1 ∧ s.rmaTc = [] ∧
      (∀ m ∈ s.mmnList,m.tcRegList = []) ∧ ¬ Accounted scifRmaTempCacheLimit s := by
  refine ⟨_,rfl,rfl,rfl,rfl,by decide,fun h => ?_⟩
  exact absurd h.bounded (by decide)

end Mpss.Proofs.CacheAccounted
