import Obsidian.Drivers.VirtioBlk

/-!
# The chains that `submit` publishes

The links of the descriptors are written once, each to its successor, and no request
writes them again. A request whose three descriptors follow each other below the
negotiated size is therefore published as one chain; the first request that does not
fit behind the ones before is not.
-/
namespace Obsidian.Drivers.VirtioBlk
open Lib Lib.Bytes

/-! ## Reads through the writes -/

section fields

variable (b : Bytes) (i addr len flags : Nat)

theorem putDesc_agree {lo hi : Nat} (h : hi ≤ 16 * i ∨ 16 * i + 14 ≤ lo) :
    Agree (putDesc b i addr len flags) b lo hi :=
  (put16_agree _ _ _ lo hi (by omega)).trans
    ((put32_agree _ _ _ lo hi (by omega)).trans (put64_agree _ _ _ lo hi (by omega)))

@[simp] theorem descNext_putDesc (j : Nat) :
    descNext (putDesc b i addr len flags) j = descNext b j :=
  get16_congr (putDesc_agree b i addr len flags (by omega))

theorem descFlags_putDesc : descFlags (putDesc b i addr len flags) i = flags % 65536 :=
    get16_put16 _ _ _

variable {j k n v : Nat}

theorem descFlags_putDesc_ne (h : j ≠ i) :
    descFlags (putDesc b i addr len flags) j = descFlags b j :=
  get16_congr (putDesc_agree b i addr len flags (by omega))

theorem descFlags_behind (hk : 16 * n ≤ k) (hj : j < n) :
    descFlags (put16 b k v) j = descFlags b j := get16_congr (put16_agree _ _ _ _ _ (by omega))

theorem descNext_behind (hk : 16 * n ≤ k) (hj : j < n) :
    descNext (put16 b k v) j = descNext b j := get16_congr (put16_agree _ _ _ _ _ (by omega))

end fields

/-- The loop of `setup_queue` writes the table only, and links each descriptor it passes. -/
theorem linkDescs_spec (b : Bytes) (more i : Nat) (small : i + more ≤ queueEnts) :
    (∀ lo hi, hi ≤ 16 * i ∨ 16 * (i + more) ≤ lo → Agree (linkDescs b more i) b lo hi) ∧
    ∀ j, i ≤ j → j < i + more → descNext (linkDescs b more i) j = j + 1 := by
  induction more generalizing b i with
  | zero => exact ⟨fun lo hi _ => Agree.refl _ lo hi, fun j hlo hhi => absurd hhi (by omega)⟩
  | succ more ih =>
    obtain ⟨hframe, hlinks⟩ :=
      ih (put16 (put16 b (16 * i + 14) (u16 (i + 1))) (16 * i + 12) descFNext)
      (i + 1) (by omega)
    constructor
    · intro lo hi h
      exact (hframe lo hi (by omega)).trans
        ((put16_agree _ _ _ lo hi (by omega)).trans (put16_agree _ _ _ lo hi (by omega)))
    · intro j hlo hhi
      by_cases here : j = i
      · subst here
        have hlater : descNext (linkDescs b (more + 1) j) j =
            descNext (put16 (put16 b (16 * j + 14) (u16 (j + 1))) (16 * j + 12) descFNext) j :=
          get16_congr (hframe _ _ (by omega))
        have hflags : descNext (put16 (put16 b (16 * j + 14) (u16 (j + 1))) (16 * j + 12) descFNext)
          j =
            descNext (put16 b (16 * j + 14) (u16 (j + 1))) j :=
              get16_congr (put16_agree _ _ _ _ _ (by omega))
        simp only [queueEnts] at small
        rw [hlater, hflags, descNext, get16_put16, u16]
        omega
      · exact hlinks j (by omega) (by omega)

/-! ## The queue after a number of requests -/

/-- `m` requests were published, each behind the one before. -/
structure Fresh (q : Queue) (qn m : Nat) : Prop where
  avail : q.avail = 16 * qn
  idx : availIdx q.mem q.avail = m
  head : q.freeHead = 3 * m
  links : ∀ i, i < qn → descNext q.mem i = i + 1

theorem queueSize_le (qmax : Nat) : queueSize qmax ≤ queueEnts := by
  unfold queueSize
  split
  · omega
  · exact Nat.le_refl _

theorem setupQueue_fresh {qmax : Nat} {q q' : Queue} (some : 3 ≤ queueSize qmax)
    (setup : setupQueue qmax q = .some q') : Fresh q' (queueSize qmax) 0 := by
  have hle := queueSize_le qmax
  unfold setupQueue at setup
  split at setup
  · cases setup
  · cases setup
    generalize queueSize qmax = qn at some hle ⊢
    obtain ⟨hframe, hlinks⟩ := linkDescs_spec (fill q.mem 0 ringBytes 0) qn 0 (by omega)
    simp only [queueEnts] at hle
    refine ⟨rfl, ?_, rfl, ?_⟩
    · have hzero : get16 (fill q.mem 0 ringBytes 0) (16 * qn + 2) = 0 := by
        have hin : ∀ k, k < 8192 → fill q.mem 0 ringBytes 0 k = 0 := by
          intro k hk
          simp [fill, ringBytes, hk]
        simp [get16, hin (16 * qn + 2) (by omega), hin (16 * qn + 2 + 1) (by omega)]
      have hlater := (put16_agree (linkDescs (fill q.mem 0 ringBytes 0) qn 0) (16 * (qn - 1) + 12) 0
        (16 * qn + 2) (16 * qn + 4) (by omega)).trans (hframe _ _ (by omega))
      exact (get16_congr hlater).trans hzero
    · intro i hi
      have hlater : descNext (put16 (linkDescs (fill q.mem 0 ringBytes 0) qn 0)
        (16 * (qn - 1) + 12) 0) i =
          descNext (linkDescs (fill q.mem 0 ringBytes 0) qn 0) i :=
        get16_congr (put16_agree _ _ _ _ _ (by omega))
      exact hlater.trans (hlinks i (Nat.zero_le i) (by omega))

/-- The next request has all its descriptors in the table. -/
structure Ready (q : Queue) (qn m : Nat) : Prop extends Fresh q qn m where
  small : qn ≤ 64
  slot : m < qn
  hdr : q.freeHead < qn
  data : q.dData < qn
  stat : q.dStat < qn

section publish

variable {q : Queue} {qn m : Nat}

theorem describe_flags (q : Queue) (r : Request) (distinct : [q.freeHead, q.dData, q.dStat].Nodup) :
    descFlags (q.describe r) q.freeHead &&& descFNext ≠ 0 ∧ descFlags
    (q.describe r) q.dData &&& descFNext ≠ 0 ∧
      descFlags (q.describe r) q.dStat &&& descFNext = 0 := by
  simp only [List.nodup_cons, List.mem_cons, List.not_mem_nil, or_false, not_or] at distinct
  obtain ⟨⟨hhd, hht⟩, hdt, -⟩ := distinct
  refine ⟨?_, ?_, ?_⟩
  · rw [Queue.describe, descFlags_putDesc_ne _ _ _ _ _ hht, descFlags_putDesc_ne _ _ _ _ _ hhd,
      descFlags_putDesc]
    decide
  · rw [Queue.describe, descFlags_putDesc_ne _ _ _ _ _ hdt, descFlags_putDesc]
    cases r.isWrite with
    | false => decide
    | true => decide
  · rw [Queue.describe, descFlags_putDesc]
    decide

section ready

variable (ready : Ready q qn m) (r : Request)
include ready

theorem Ready.describe_behind {lo hi : Nat} (behind : 16 * qn ≤ lo) :
    Agree (q.describe r) q.mem lo hi := by
  have hhdr := ready.hdr
  have hdata := ready.data
  have hstat := ready.stat
  exact (putDesc_agree _ _ _ _ _ (by omega)).trans
    ((putDesc_agree _ _ _ _ _ (by omega)).trans (putDesc_agree _ _ _ _ _ (by omega)))

theorem Ready.publish_mem : (q.publish r).mem =
    put16 (put16 (q.describe r) (q.avail + 4 + 2 * m) q.freeHead) (q.avail + 2) (m + 1) := by
  have havail := ready.avail
  have hsmall := ready.small
  have hlt := ready.slot
  have hidx : availIdx (q.describe r) q.avail = m := by
    rw [← ready.idx]
    exact get16_congr (ready.describe_behind r (by omega))
  have hslot : m % queueEnts = m := Nat.mod_eq_of_lt (by simp only [queueEnts]; omega)
  have hring : availIdx (put16 (q.describe r) (q.avail + 4 + 2 * m) q.freeHead) q.avail = m := by
    rw [← hidx]
    exact get16_put16_ne _ _ _ _ (by omega)
  simp only [Queue.publish, hidx, hslot, hring]
  rw [u16_of_lt (by omega)]

theorem Ready.publish_ring : availRing (q.publish r).mem q.avail (m % qn) = q.freeHead := by
  have hsmall := ready.small
  have hhdr := ready.hdr
  rw [ready.publish_mem, availRing, Nat.mod_eq_of_lt ready.slot, get16_put16_ne _ _ _ _ (by omega),
    get16_put16]
  omega

theorem Ready.publish_idx : availIdx (q.publish r).mem q.avail = m + 1 := by
  have hsmall := ready.small
  have hlt := ready.slot
  rw [ready.publish_mem, availIdx, get16_put16]
  omega

theorem Ready.publish_links {i : Nat} (hi : i < qn) : descNext (q.publish r).mem i = i + 1 := by
  have havail := ready.avail
  rw [ready.publish_mem, descNext_behind _ (n := qn) (by omega) hi, descNext_behind _ (n :=
    qn) (by omega) hi,
    Queue.describe]
  simp only [descNext_putDesc]
  exact ready.links i hi

theorem Ready.publish_flags {i : Nat} (hi : i < qn) :
    descFlags (q.publish r).mem i = descFlags (q.describe r) i := by
  have havail := ready.avail
  rw [ready.publish_mem, descFlags_behind _ (n := qn) (by omega) hi, descFlags_behind _ (n :=
    qn) (by omega) hi]

/-- From a descriptor with a successor the device goes to the next in the table. -/
theorem Ready.follow_next {i : Nat} (hi : i < qn)
    (next : descFlags (q.describe r) i &&& descFNext ≠ 0) (more : Nat) :
    follow (q.publish r).mem qn (more + 1) i = (follow (q.publish r).mem qn more (i + 1)).map
    (i :: ·) := by
  rw [follow, if_neg (Nat.not_le.mpr hi), ready.publish_flags r hi, if_neg next,
    ready.publish_links r hi]

theorem Ready.chainAt_eq :
    (q.publish r).chainAt qn (availIdx q.mem q.avail) = follow
    (q.publish r).mem qn qn q.freeHead := by
  have hring : availRing (q.publish r).mem (q.publish r).avail (m % qn) = q.freeHead :=
    ready.publish_ring r
  rw [Queue.chainAt, ready.idx, hring]

end ready

/-- A request whose descriptors follow each other below the queue size is published as one
chain, and only such a request is. -/
theorem Fresh.publishes_iff (fresh : Fresh q qn m) (lower : 3 ≤ qn) (small : qn ≤ 64)
    (behind : 3 * m ≤ qn) (r : Request) :
    q.Publishes qn r ↔ 3 * m + 2 < qn := by
  have hhead := fresh.head
  have hdata : q.dData = (3 * m + 1) % 64 := by rw [Queue.dData, hhead, queueEnts]
  have hstat : q.dStat = (3 * m + 2) % 64 := by rw [Queue.dStat, hhead, queueEnts]
  have distinct : [q.freeHead, q.dData, q.dStat].Nodup := by
    simp only [hhead, hdata, hstat, List.nodup_cons, List.mem_cons, List.not_mem_nil,
      or_false, not_or,
      not_false_eq_true, List.nodup_nil, and_true]
    omega
  obtain ⟨hnext, hnext', hlast⟩ := describe_flags q r distinct
  constructor
  · rintro ⟨chain, -, below⟩
    have hbelow : q.freeHead < qn ∧ q.dData < qn ∧ q.dStat < qn :=
      ⟨below _ (by simp), below _ (by simp), below _ (by simp)⟩
    by_contra past
    -- only the last descriptor of a full table has its successor in the table again
    have ready : Ready q qn m := ⟨fresh, small, by omega, hbelow.1, hbelow.2.1, hbelow.2.2⟩
    obtain ⟨more, rfl⟩ : ∃ more, qn = more + 1 + 1 := ⟨qn - 2, by omega⟩
    rw [ready.chainAt_eq, ready.follow_next r hbelow.1 hnext, follow, if_pos (by omega)] at chain
    cases chain
  · intro fits
    have ready : Ready q qn m := ⟨fresh, small, by omega, by omega, by omega, by omega⟩
    refine ⟨?_, distinct, ?_⟩
    · have hone : q.freeHead + 1 = q.dData := by omega
      have htwo : q.dData + 1 = q.dStat := by omega
      obtain ⟨more, rfl⟩ : ∃ more, qn = more + 1 + 1 + 1 := ⟨qn - 3, by omega⟩
      rw [ready.chainAt_eq, ready.follow_next r ready.hdr hnext, hone,
        ready.follow_next r ready.data hnext', htwo, follow, if_neg (Nat.not_le.mpr ready.stat),
        ready.publish_flags r ready.stat, if_pos hlast]
      rfl
    · simp only [List.mem_cons, List.not_mem_nil, or_false, forall_eq_or_imp, forall_eq]
      exact ⟨ready.hdr, ready.data, ready.stat⟩

/-- A request that is published as one chain leaves the queue ready for the next. -/
theorem Fresh.submit (fresh : Fresh q qn m) (small : qn ≤ 64) (fits : 3 * m + 2 < qn) {r : Request}
    {done : Int × Queue} (completed : submit q r = some done) : Fresh done.2 qn (m + 1) := by
  have hhead := fresh.head
  have hdata : q.dData = 3 * m + 1 := by
    rw [Queue.dData, hhead, queueEnts]
    omega
  have hstat : q.dStat = 3 * m + 2 := by
    rw [Queue.dStat, hhead, queueEnts]
    omega
  have ready : Ready q qn m := ⟨fresh, small, by omega, by omega, by omega, by omega⟩
  unfold VirtioBlk.submit at completed
  split at completed
  · cases completed
  · cases completed
    refine ⟨fresh.avail, ready.publish_idx r, ?_, fun i hi => ready.publish_links r hi⟩
    show u16 ((q.dStat + 1) % queueEnts) = 3 * (m + 1)
    have hwrap : (3 * m + 2 + 1) % 64 = 3 * (m + 1) := by omega
    rw [hstat, queueEnts, hwrap, u16_of_lt (by omega)]

end publish

/-! ## Runs -/

/-- Requests one after the other, each completed before the next. -/
def submitStep (q : Queue) (r : Request) : Option Queue := (submit q r).map Prod.snd

/-- Every request of a list, from `q` on, is published as one chain. -/
def AllPublished (q : Queue) (qn : Nat) (requests : List Request) : Prop :=
  ∀ front r back mid, requests = front ++ r :: back → Run submitStep (fun _ _ => True) q front mid →
    mid.Publishes qn r

theorem Fresh.run {q final : Queue} {qn m : Nat} {requests : List Request} (fresh : Fresh q qn m)
    (small : qn ≤ 64) (fits : 3 * (m + requests.length) ≤ qn)
    (run : Run submitStep (fun _ _ => True) q requests final) :
    Fresh final qn (m + requests.length) := by
  induction run generalizing m with
  | done => exact fresh
  | @call q next final r rest _ returned _ ih =>
    rw [List.length_cons] at fits ⊢
    obtain ⟨done, completed, rfl⟩ := Option.map_eq_some_iff.mp returned
    rw [show m + (rest.length + 1) = m + 1 + rest.length by omega]
    exact ih (fresh.submit small (by omega) completed) (by omega)

/-- For every negotiated size of at least three, after any completed requests: all of them
and the next are published as one chain exactly when all their descriptors lie in the
table one behind the other. -/
theorem chains_well_formed_iff {qmax : Nat} {q start : Queue}
    (setup : setupQueue qmax q = some start) (lower : 3 ≤ queueSize qmax) {requests : List Request}
    {final : Queue} (run : Run submitStep (fun _ _ => True) start requests final) (next : Request) :
    AllPublished start (queueSize qmax) (requests ++ [next]) ↔ 3 * requests.length + 2 <
    queueSize qmax := by
  have small : queueSize qmax ≤ 64 := queueSize_le qmax
  have fresh := setupQueue_fresh lower setup
  generalize queueSize qmax = qn at lower small fresh ⊢
  constructor
  · intro all
    by_contra past
    -- the first request that does not fit behind the others
    obtain ⟨mid, hfront, -⟩ : ∃ mid, Run submitStep (fun _ _ => True) start
      (requests.take (qn / 3)) mid ∧
        Run submitStep (fun _ _ => True) mid (requests.drop (qn / 3)) final := by
      rw [← List.take_append_drop (qn / 3) requests] at run
      exact run.split
    have hlen : (requests.take (qn / 3)).length = qn / 3 := by
      rw [List.length_take]
      omega
    obtain ⟨r, back, hsplit⟩ : ∃ r back, requests.drop (qn / 3) ++ [next] = r :: back := by
      cases requests.drop (qn / 3) with
      | nil => exact ⟨next, [], rfl⟩
      | cons r rest => exact ⟨r, rest ++ [next], rfl⟩
    have hwhole : requests ++ [next] = requests.take (qn / 3) ++ r :: back := by
      rw [← hsplit, ← List.append_assoc, List.take_append_drop]
    have hmid := fresh.run small (by omega) hfront
    rw [Nat.zero_add] at hmid
    have hfits := (hmid.publishes_iff lower small (by omega) r).mp (all _ r back mid hwhole hfront)
    omega
  · intro fits front r back mid split runs
    have hlen : front.length ≤ requests.length := by
      have := congrArg List.length split
      simp only [List.length_append, List.length_cons, List.length_nil] at this
      omega
    have hmid := fresh.run small (by omega) runs
    exact (hmid.publishes_iff lower small (by omega) r).mpr (by omega)

/-- A queue of the size that the driver was compiled for. -/
def bareQueue : Queue :=
  { modern := true, regs := ⟨0, 0, 0, 0, 0, 0, 0⟩, mem := zero, avail := 0,
    freeHead := 0, freeCount := 0
    lastUsed := 0, reqHdr := ⟨0, 0, 0⟩, devStatus := 0, ringMemAt := 0x40100000,
      reqHdrAt := 0x40200000
    devStatusAt := 0x40200010 }

/-- A read of one sector that the device answers at once, as request `n`. -/
def readRequest (n : Nat) : Request := ⟨false, 0, 1, 0x40300000, n + 1, 0⟩

theorem chains_well_formed_sample : ∃ start final, setupQueue 64 bareQueue = some start ∧
    Run submitStep (fun _ _ => True) start [readRequest 0, readRequest 1] final ∧
    AllPublished start 64 [readRequest 0, readRequest 1, readRequest 2] := by
  obtain ⟨start, setup⟩ :=
    Option.isSome_iff_exists.mp (by decide : (setupQueue 64 bareQueue).isSome)
  have runs : ((setupQueue 64 bareQueue).bind fun start => exec submitStep (fun _ _ => True) start
      [readRequest 0, readRequest 1]).isSome := by decide
  rw [setup] at runs
  obtain ⟨final, run⟩ := Run.exists_of_exec runs
  exact ⟨start, final, setup, run,
    (chains_well_formed_iff setup (by decide) run (readRequest 2)).mpr (by decide)⟩

/-- The twenty-second request of a queue of 64 descriptors starts in the last one, whose
link leaves the table. -/
theorem chain_leaves_table : ∃ start final, setupQueue 64 bareQueue = some start ∧
    Run submitStep (fun _ _ => True) start ((List.range 21).map readRequest) final ∧
    ¬ final.Publishes 64 (readRequest 21) := by
  obtain ⟨start, setup⟩ :=
    Option.isSome_iff_exists.mp (by decide : (setupQueue 64 bareQueue).isSome)
  have runs : ((setupQueue 64 bareQueue).bind fun start => exec submitStep (fun _ _ => True) start
      ((List.range 21).map readRequest)).isSome := by decide
  rw [setup] at runs
  obtain ⟨final, run⟩ := Run.exists_of_exec runs
  have fresh : Fresh start 64 0 := setupQueue_fresh (by decide) setup
  have last := fresh.run (by decide) (by decide) run
  refine ⟨start, final, setup, run, fun published => ?_⟩
  exact absurd ((last.publishes_iff (by decide) (by decide) (by decide) _).mp published) (by decide)

end Obsidian.Drivers.VirtioBlk
