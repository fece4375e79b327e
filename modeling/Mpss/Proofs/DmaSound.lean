import Mpss.Library.Runs
import Mpss.Proofs.DmaChannel

namespace Mpss.Proofs.DmaSound

open Dma.Lib Library.Runs Proofs.DmaChannel List Option

/-- The reports of a mark end at the place. -/
def Marked (cfg : Config) (ch : DmaChannel) (m p : Nat) : Prop :=
  ∃ q,p + 1 = q + (intrDescs cfg 0).length ∧
    Placed (intrDescs cfg 0).length ch.intrRing.size .intrRing ch.programmed m q

structure Sound (cfg : Config) (start : Nat) (s : State) : Prop where
  queue : Queue start s.chan
  published : s.chan.dhpr = s.chan.nextWriteIndex
  intr : ∃ h,Ringed (intrDescs cfg 0).length .intrRing s.chan.intrRing h s.chan.programmed
    s.chan.executed
  poll : ∃ h,Ringed 1 .pollRing s.chan.pollRing h s.chan.programmed s.chan.executed
  marks : ∀ m p,(m,p) ∈ s.marks → Marked cfg s.chan m p
  cookies : ∀ m p,(m,p) ∈ s.cookies → Placed 1 s.chan.pollRing.size .pollRing s.chan.programmed m p

theorem init_sound (cfg : Config) (hc : 0 < numComp) (hp : 0 < numPoll) (hs : start < numDesc)
    (ring : Nat → Desc) : Sound cfg start (init numComp numPoll numDesc start ring) := by
  have hsl : start = (start + 0) % numDesc := (Nat.mod_eq_of_lt hs).symm
  refine ⟨⟨Nat.zero_lt_of_lt hs,hsl,hsl,prefix_refl _,by simp [init],0,Nat.le_refl 0,
    hsl,?_⟩,rfl,⟨0,?_,rfl,by simp [Numbered,Counted,init]⟩,⟨0,?_,rfl,by simp [Numbered,Counted,init]⟩,
    by simp [init],by simp [init]⟩
  · simp only [init,length_nil]
    omega
  · simpa [init,statuses,Nat.div_eq_of_lt (Nat.sub_one_lt_of_lt (intrDescs_length_pos cfg 0))] using
      initRing_tracks hc
  · simpa [init,statuses] using initRing_tracks hp

theorem placed_entry (hr : Ringed c r ring h l executed) (hm : c * h < statuses r (l ++ ds)) :
    Placed c ring.size r (l ++ ds) ring.head l.length := by
  refine ⟨?_,h,hr.tracks.head,?_,hm⟩
  · rcases eq_nil_or_concat' ds with rfl | ⟨es,d,rfl⟩
    · rw [append_nil,hr.taken] at hm
      omega
    · simp
  · rw [take_left,hr.taken]

theorem perform_eq (ch : DmaChannel) (d : Desc) :
    (ch.perform d).2 = { ch with
      intrRing := serve .intrRing ch.intrRing d,pollRing := serve .pollRing ch.pollRing d } := by
  cases d with
  | memcpy src dst size => rfl
  | status data dap intr => cases dap <;> rfl

theorem execute_spec (h : execute ch = some r) :
    ch.dtpr ≠ ch.dhpr ∧ r.1 = (ch.perform (ch.descRing ch.dtpr)).1 ∧
      r.2 = { ch with
        intrRing := serve .intrRing ch.intrRing (ch.descRing ch.dtpr)
        pollRing := serve .pollRing ch.pollRing (ch.descRing ch.dtpr)
        dtpr := incrRbIndex ch.dtpr ch.numDescInRing
        executed := ch.executed ++ [ch.descRing ch.dtpr] } := by
  obtain ⟨hne,h⟩ := ite_none_left_eq_some.mp h
  cases h
  refine ⟨hne,rfl,?_⟩
  simp [perform_eq]

theorem serve_size (r : Dap) (ring : ComplBufRing) (d : Desc) : (serve r ring d).size = ring.size := by
  cases d with
  | memcpy src dst size => rfl
  | status data dap intr => by_cases h : dap = r <;> simp [serve,h]

section
variable (hs : Sound cfg start s)
include hs

theorem Sound.call (hc : Called cfg start wi wp cb s.chan ch copies)
    (hm : ∀ m p,(m,p) ∈ ms → (m,p) ∈ s.marks ∨ Marked cfg ch m p)
    (hk : ∀ m p,(m,p) ∈ ks → (m,p) ∈ s.cookies ∨ Placed 1 s.chan.pollRing.size .pollRing
    ch.programmed m p) :
    Sound cfg start { s with chan := ch,submitted := submitted,marks := ms,cookies := ks } := by
  obtain ⟨h,hr⟩ := hs.intr
  obtain ⟨g,hg⟩ := hs.poll
  obtain ⟨hin,hi⟩ := hc.intr_ringed hr
  obtain ⟨hpl,hp⟩ := hc.poll_ringed hg
  refine ⟨hc.queue,hc.published,⟨_,hin⟩,⟨_,hpl⟩,?_,?_⟩
  · intro m p hmm
    rcases hm m p hmm with ho | hn
    · obtain ⟨q,hq,hpq⟩ := hs.marks m p ho
      refine ⟨q,hq,?_⟩
      rw [hi,hc.programmed,append_assoc]
      exact hpq.append _
    · exact hn
  · intro m p hmm
    rw [hp]
    rcases hk m p hmm with ho | hn
    · rw [hc.programmed,append_assoc]
      exact (hs.cookies m p ho).append _
    · exact hn

theorem Sound.dma (h : step cfg s (.dma flags src dst len) = some t) : Sound cfg start t := by
  obtain ⟨r,hr,rfl⟩ := map_eq_some_iff.mp h
  obtain ⟨copies,hc,hck⟩ := doDma_called hs.queue hr
  apply hs.call hc
  · intro m p hm
    exact .inl hm
  intro m p hm
  cases hp : flags.polling with
  | false => exact .inl (by simpa [hp] using hm)
  | true =>
    simp only [hp,if_true,mem_append,mem_singleton,Prod.mk.injEq] at hm
    rcases hm with hm | ⟨rfl,rfl⟩
    · exact .inl hm
    right
    obtain ⟨g,hg⟩ := hs.poll
    have hb := hg.append_other (fun d hd => (hc.silent d hd).2)
    have hpr := hc.programmed
    have hl : r.2.programmed.length - 1 - (if flags.intr then (intrDescs cfg 0).length else 0) =
        (s.chan.programmed ++ copies).length := by
      rw [hpr,hp]
      cases flags.intr with
      | true =>
        simp only [if_true,length_append,length_singleton,length_intrDescs cfg s.chan.intrRing.head 0]
        omega
      | false =>
        simp only [if_true,Bool.false_eq_true,if_false,length_append,length_singleton,length_nil]
        omega
    have ha := (hc.poll_ringed hg).1.taken
    rw [hp,if_pos rfl,hpr] at ha
    rw [hl,hck hp,hpr]
    exact placed_entry hb (by rw [ha]; omega)

theorem Sound.mark (h : step cfg s .mark = some t) : Sound cfg start t := by
  obtain ⟨r,hr,rfl⟩ := map_eq_some_iff.mp h
  obtain ⟨hc,hsl⟩ := programDmaMark_called hs.queue hr
  apply hs.call hc
  · intro m p hm
    rcases mem_append.mp hm with hm | hm
    · exact .inl hm
    right
    obtain ⟨h',hg⟩ := hs.intr
    cases mem_singleton.mp hm
    obtain ⟨hin,hi⟩ := hc.intr_ringed hg
    have ha := hin.taken
    have hps := intrDescs_length_pos cfg 0
    have hp := hc.programmed
    simp only [append_nil] at hp
    rw [if_pos rfl,hp,Nat.mul_succ] at ha
    refine ⟨s.chan.programmed.length,?_,?_⟩
    · simp only [hp,if_true,Bool.false_eq_true,if_false,nil_append,length_append,
        length_intrDescs cfg s.chan.intrRing.head 0]
      omega
    · rw [hsl,hp,hi]
      exact placed_entry hg (by rw [ha]; omega)
  · intro m p hm
    exact .inl hm

theorem Sound.update (h : step cfg s (.update addr value) = some t) : Sound cfg start t := by
  obtain ⟨ch,hr,rfl⟩ := map_eq_some_iff.mp h
  exact hs.call (doStatusUpdate_called hs.queue hr) (fun _ _ => Or.inl) (fun _ _ => Or.inl)

theorem Sound.hardware (h : step cfg s .hardware = some t) : Sound cfg start t := by
  obtain ⟨r,hr,rfl⟩ := map_eq_some_iff.mp h
  obtain ⟨hne,-,hch⟩ := execute_spec hr
  obtain ⟨hi,hin⟩ := hs.intr
  obtain ⟨hp,hpl⟩ := hs.poll
  have hn := hs.queue.next hs.published hne
  simp only [hch]
  refine ⟨hs.queue.execute hs.published hne _ _,hs.published,
    ⟨hi,hin.execute (intrDescs_length_pos cfg 0) hn⟩,⟨hp,hpl.execute Nat.one_pos hn⟩,?_,?_⟩
  · simpa only [Marked,serve_size] using hs.marks
  · simpa only [serve_size] using hs.cookies

end

theorem Ringed.update (hr : Ringed c r ring h l x) :
    Ringed c r (updateTail ring (readTail ring)) h l x :=
  ⟨hr.tracks.update,hr.taken,hr.numbered⟩

theorem Sound.poll_step (hs : Sound cfg start s) (h : step cfg s (.poll cookie) = some t) :
    Sound cfg start t := by
  cases h
  obtain ⟨hp,hpl⟩ := hs.poll
  exact { hs with queue := hs.queue.withRings _ _ _,poll := ⟨hp,Ringed.update hpl⟩ }

theorem Sound.handle (hs : Sound cfg start s) (h : step cfg s .handle = some t) :
    Sound cfg start t := by
  cases h
  obtain ⟨hi,hin⟩ := hs.intr
  have hq := hs.queue
  exact { hs with
    queue := ⟨hq.size,hq.write,hq.tail,hq.order,hq.kept,hq.cached⟩,intr := ⟨hi,Ringed.update hin⟩ }

theorem step_sound (s : State) (a : Act) (t : State) (hs : Sound cfg start s) (_ : True)
    (h : step cfg s a = some t) : Sound cfg start t := by
  cases a with
  | dma flags src dst len => exact hs.dma h
  | update addr value => exact hs.update h
  | mark => exact hs.mark h
  | poll cookie => exact hs.poll_step h
  | hardware => exact hs.hardware h
  | handle => exact hs.handle h

/-- A mark or a cookie that is found complete has every descriptor before its last one executed, and
that one too unless the build writes the index of a mark twice. -/
theorem marks_and_cookies_sound (cfg : Config) (numComp numPoll numDesc start : Nat)
    (hc : 0 < numComp) (hp : 0 < numPoll) (hs : start < numDesc) (ring : Nat → Desc) (as : List Act)
    (he : exec (step cfg) (init numComp numPoll numDesc start ring) as = some t) :
    (∀ m p,(m,p) ∈ t.marks → ∀ signalled expired,dmaMarkWait t.chan m signalled expired = some 0 →
      p ≤ t.chan.executed.length ∧ (cfg.mk1om = false → p < t.chan.executed.length)) ∧
    (∀ m p,(m,p) ∈ t.cookies → (pollDmaCompletion t.chan m).1 = true → p < t.chan.executed.length) ∧
    t.chan.executed <+: t.chan.programmed ∧
    ∀ k d,t.chan.executed.length ≤ k → t.chan.programmed[k]? = some d →
      t.chan.descRing ((start + k) % t.chan.numDescInRing) = d := by
  have hsn :=
    exec_invariant step_sound (init_sound cfg hc hp hs ring)
      (Along.always (fun _ _ => trivial) _ as) he
  obtain ⟨hi,hin⟩ := hsn.intr
  obtain ⟨hg,hpl⟩ := hsn.poll
  refine ⟨?_,?_,hsn.queue.order,hsn.queue.kept⟩
  · intro m p hm signalled expired hw
    have hd : isDmaMarkProcessed t.chan m = true := by
      by_contra hnot
      simp only [dmaMarkWait,if_neg hnot] at hw
      revert hw
      split
      · simp
      · split <;> simp
    obtain ⟨q,hq,hpq⟩ := hsn.marks m p hm
    have hx := hin.processed (intrDescs_length_pos cfg 0) hsn.queue.order hpq hd
    unfold intrDescs at hq
    cases hk : cfg.mk1om <;> simp_all <;> omega
  · intro m p hm hd
    exact (Ringed.update hpl).processed Nat.one_pos hsn.queue.order (hsn.cookies m p hm) hd

def smallConfig : Config := ⟨false,64,by decide⟩

def mk1omConfig : Config := { smallConfig with mk1om := true }

def smallRings : State := init 3 3 8 0 (fun _ => .memcpy 0 0 0)

def dmaThenMark : List Act :=
  [.dma ⟨true,true⟩ 0 4096 64,.mark,.hardware,.hardware,.hardware,.hardware,.handle]

def twoMarks : List Act := [.mark,.mark,.hardware,.hardware,.hardware,.handle]

theorem mark_and_cookie_complete :
    (∃ t,exec (step smallConfig) smallRings dmaThenMark = some t ∧
      (1,3) ∈ t.marks ∧ dmaMarkWait t.chan 1 false false = some 0 ∧ 3 < t.chan.executed.length ∧
      (0,1) ∈ t.cookies ∧ (pollDmaCompletion t.chan 0).1 = true ∧ 1 < t.chan.executed.length) ∧
    ∃ t,exec (step mk1omConfig) smallRings twoMarks = some t ∧
      (1,3) ∈ t.marks ∧ dmaMarkWait t.chan 1 false false = some 0 ∧ 3 ≤ t.chan.executed.length := by
  have hr := fun cfg as t => marks_and_cookies_sound cfg 3 3 8 0 (by decide) (by decide) (by decide)
    (fun _ => .memcpy 0 0 0) as (t := t)
  have hm : (1,3) ∈ [(0,1),(1,3)] := by decide
  refine ⟨⟨_,rfl,mem_singleton_self _,rfl,?_,mem_singleton_self _,rfl,?_⟩,_,rfl,hm,rfl,?_⟩
  · exact ((hr smallConfig dmaThenMark _ rfl).1 1 3 (mem_singleton_self _) false false rfl).2 rfl
  · exact (hr smallConfig dmaThenMark _ rfl).2.1 0 1 (mem_singleton_self _) rfl
  · exact ((hr mk1omConfig twoMarks _ rfl).1 1 3 hm false false rfl).1

/-- The interrupt of one mark is served after the first report of the next mark. -/
theorem interrupt_descriptor_left :
    ∃ t,exec (step mk1omConfig) smallRings twoMarks = some t ∧
      (1,3) ∈ t.marks ∧ dmaMarkWait t.chan 1 false false = some 0 ∧ t.chan.executed.length = 3 := by
  refine ⟨_,rfl,?_,rfl,rfl⟩
  exact mem_cons_of_mem _ (mem_singleton_self _)

end Mpss.Proofs.DmaSound
