import Mathlib.Data.List.Basic
import Mathlib.Data.List.GetD
import Mathlib.Logic.Function.Basic

/-!
# Manual routing

`ManualPolicy` keeps up to two candidate urls for a routing key, the oldest first. A selection
takes the first candidate that is healthy, so a key that was moved off a worker goes back to it as
soon as it recovers. A run is the list of its selections, each with the policy it found.
Idle eviction is off.
-/

namespace SparkInfer.Gateway.Manual

open List Function

variable {workers : List Worker} {indices healthy : List Nat} {url : String} {idx : Nat}
variable {urls : List String} {calls : List SelectCall} {rest : List Selection} {w : Worker}

/-- What one call reads of a worker. -/
structure Worker where
  url : String
  isHealthy : Bool
  canExecute : Bool
  load : Nat
  routingKeyLoad : Nat
  deriving DecidableEq

def Worker.available (w : Worker) : Bool := w.isHealthy && w.canExecute

def getHealthyWorkerIndices (workers : List Worker) : List Nat :=
  (workers.zipIdx.filter fun w => w.1.available).map Prod.snd

inductive ManualAssignmentMode where
  | random
  | minLoad
  | minGroup

inductive ExecutionBranch where
  | noHealthyWorkers
  | occupiedHit
  | occupiedMiss
  | vacant
  | noRoutingId

structure Node where
  candiWorkerUrls : List String
  lastAccess : Nat

def maxCandidateWorkers : Nat := 2

/-- The loop of `push_bounded`: the oldest url goes while there are too many. -/
def dropOldest : List String → List String
  | [] => []
  | url :: urls =>
    if maxCandidateWorkers ≤ (url :: urls).length then dropOldest urls else url :: urls

def pushBounded (urls : List String) (url : String) : List String := dropOldest urls ++ [url]

structure ManualPolicy where
  routingMap : String → Option Node
  assignmentMode : ManualAssignmentMode

def ManualPolicy.new (mode : ManualAssignmentMode) : ManualPolicy := ⟨fun _ => none, mode⟩

/-- One call of `select_worker`; a random index below `n` is `rng % n`. -/
structure SelectCall where
  workers : List Worker
  routingKey : Option String
  now : Nat
  rng : Nat

def findWorkerIndexByUrl (workers : List Worker) (url : String) : Option Nat :=
  workers.findIdx? (·.url == url)

def findHealthyWorker (urls : List String) (workers : List Worker) (healthy : List Nat) :
    Option Nat :=
  urls.findSome? fun url =>
    (findWorkerIndexByUrl workers url).filter fun idx => healthy.contains idx

-- The list is never empty where an index is drawn from it, so the default is never read.
def randomSelect (healthy : List Nat) (rng : Nat) : Nat :=
  healthy.getD (rng % healthy.length) 0

def minStep (getValue : Nat → Nat) (acc : Option Nat × List Nat) (idx : Nat) :
    Option Nat × List Nat :=
  match acc.1 with
  | none => (some (getValue idx), [idx])
  | some m =>
    match compare (getValue idx) m with
    | .lt => (some (getValue idx), [idx])
    | .eq => (acc.1, acc.2 ++ [idx])
    | .gt => acc

def selectMinBy (indices : List Nat) (getValue : Nat → Nat) (rng : Nat) : Nat :=
  randomSelect (indices.foldl (minStep getValue) (none, [])).2 rng

def selectNewWorker (mode : ManualAssignmentMode) (c : SelectCall) (healthy : List Nat) : Nat :=
  match mode with
  | .random => randomSelect healthy c.rng
  | .minLoad => selectMinBy healthy (fun i => (c.workers[i]?.map (·.load)).getD 0) c.rng
  | .minGroup =>
    selectMinBy healthy (fun i => (c.workers[i]?.map (·.routingKeyLoad)).getD 0) c.rng

def urlAt (workers : List Worker) (idx : Nat) : String := (workers[idx]?.map (·.url)).getD ""

namespace ManualPolicy

variable (p : ManualPolicy) (c : SelectCall)

def insert (routingId : String) (node : Node) : ManualPolicy :=
  { p with routingMap := update p.routingMap routingId (some node) }

def selectByRoutingId (routingId : String) (healthy : List Nat) :
    ManualPolicy × Nat × ExecutionBranch :=
  match p.routingMap routingId with
  | some node =>
    match findHealthyWorker node.candiWorkerUrls c.workers healthy with
    | some idx => (p.insert routingId { node with lastAccess := c.now }, idx, .occupiedHit)
    | none =>
      let idx := selectNewWorker p.assignmentMode c healthy
      (p.insert routingId ⟨pushBounded node.candiWorkerUrls (urlAt c.workers idx), c.now⟩, idx,
        .occupiedMiss)
  | none =>
    let idx := selectNewWorker p.assignmentMode c healthy
    (p.insert routingId ⟨[urlAt c.workers idx], c.now⟩, idx, .vacant)

def selectWorkerImpl : ManualPolicy × Option Nat × ExecutionBranch :=
  let healthy := getHealthyWorkerIndices c.workers
  if healthy = [] then (p, none, .noHealthyWorkers)
  else
    match c.routingKey with
    | some routingId =>
      let r := p.selectByRoutingId c routingId healthy
      (r.1, some r.2.1, r.2.2)
    | none => (p, some (randomSelect healthy c.rng), .noRoutingId)

end ManualPolicy

/-- A call, the policy it found and the index it returned. -/
structure Selection where
  policy : ManualPolicy
  call : SelectCall
  index : Option Nat

def Selection.worker (s : Selection) : Option Worker := s.index.bind (s.call.workers[·]?)

def ManualPolicy.selections (p : ManualPolicy) : List SelectCall → List Selection
  | [] => []
  | c :: calls =>
    ⟨p, c, (p.selectWorkerImpl c).2.1⟩ :: selections (p.selectWorkerImpl c).1 calls

/-! ## The index returned -/

theorem mem_getHealthyWorkerIndices {i : Nat} :
    i ∈ getHealthyWorkerIndices workers ↔ ∃ w, workers[i]? = some w ∧ w.available := by
  simp only [getHealthyWorkerIndices, mem_map, mem_filter, Prod.exists]
  grind

theorem randomSelect_mem {l : List Nat} (h : l ≠ []) (rng : Nat) : randomSelect l rng ∈ l := by
  have hlt : rng % l.length < l.length := Nat.mod_lt _ (length_pos_iff.mpr h)
  rw [randomSelect, getD_eq_getElem _ _ hlt]
  exact getElem_mem hlt

theorem minStep_foldl_spec (getValue : Nat → Nat) (acc : Option Nat × List Nat) {all : List Nat}
    (hindices : indices ⊆ all) (hne : acc.2 ≠ []) (hsub : acc.2 ⊆ all) :
    (indices.foldl (minStep getValue) acc).2 ≠ [] ∧
      (indices.foldl (minStep getValue) acc).2 ⊆ all := by
  induction indices generalizing acc with
  | nil => exact ⟨hne, hsub⟩
  | cons idx indices ih =>
    have hstep : (minStep getValue acc idx).2 ≠ [] ∧ (minStep getValue acc idx).2 ⊆ all := by
      simp only [minStep]
      repeat' split
      all_goals simp_all
    exact ih _ (fun _ h => hindices (mem_cons_of_mem _ h)) hstep.1 hstep.2

theorem selectMinBy_mem (h : indices ≠ []) (getValue : Nat → Nat) (rng : Nat) :
    selectMinBy indices getValue rng ∈ indices := by
  obtain ⟨idx, rest, rfl⟩ := exists_cons_of_ne_nil h
  have hspec := minStep_foldl_spec getValue (some (getValue idx), [idx])
    (subset_cons_self idx rest) (by simp) (by simp)
  exact hspec.2 (randomSelect_mem hspec.1 rng)

theorem selectNewWorker_mem (h : healthy ≠ []) (mode : ManualAssignmentMode) (c : SelectCall) :
    selectNewWorker mode c healthy ∈ healthy := by
  cases mode with
  | random => exact randomSelect_mem h c.rng
  | minLoad => exact selectMinBy_mem h _ c.rng
  | minGroup => exact selectMinBy_mem h _ c.rng

theorem findWorkerIndexByUrl_eq_some (h : findWorkerIndexByUrl workers url = some idx) :
    urlAt workers idx = url := by
  obtain ⟨hlt, hurl, -⟩ := findIdx?_eq_some_iff_getElem.mp h
  simpa [urlAt, hlt] using hurl

theorem findHealthyWorker_spec (h : findHealthyWorker urls workers healthy = some idx) :
    idx ∈ healthy ∧ urlAt workers idx ∈ urls := by
  obtain ⟨url, hurl, hidx⟩ := exists_of_findSome?_eq_some h
  obtain ⟨hfind, hmem⟩ := Option.filter_eq_some_iff.mp hidx
  exact ⟨by simpa using hmem, findWorkerIndexByUrl_eq_some hfind ▸ hurl⟩

variable (p : ManualPolicy) (c : SelectCall)

/-- The url returned is among the candidates from then on, and no other key is touched. -/
theorem selectByRoutingId_spec (key : String) (h : healthy ≠ []) :
    let r := p.selectByRoutingId c key healthy
    r.2.1 ∈ healthy ∧ (∀ k ≠ key, r.1.routingMap k = p.routingMap k) ∧
      ∃ node, r.1.routingMap key = some node ∧ urlAt c.workers r.2.1 ∈ node.candiWorkerUrls := by
  have hnew := selectNewWorker_mem h p.assignmentMode c
  simp only [ManualPolicy.selectByRoutingId]
  split
  · split
    · rename_i hfind
      obtain ⟨hmem, hurl⟩ := findHealthyWorker_spec hfind
      exact ⟨hmem, fun k hk => update_of_ne hk _ _, _, update_self .., hurl⟩
    · exact ⟨hnew, fun k hk => update_of_ne hk _ _, _, update_self .., by simp [pushBounded]⟩
  · exact ⟨hnew, fun k hk => update_of_ne hk _ _, _, update_self .., by simp⟩

/-- What a call selects is healthy and remembered for its key; the candidates of a key it selects
nothing for stay as they are. -/
theorem selectWorkerImpl_spec : let r := p.selectWorkerImpl c
    (∀ i ∈ r.2.1, i ∈ getHealthyWorkerIndices c.workers) ∧
      (∀ key, (c.routingKey = some key → r.2.1 = none) → r.1.routingMap key = p.routingMap key) ∧
      ∀ key, c.routingKey = some key → ∀ i ∈ r.2.1,
        ∃ node, r.1.routingMap key = some node ∧ urlAt c.workers i ∈ node.candiWorkerUrls := by
  simp only [ManualPolicy.selectWorkerImpl]
  split_ifs with hne
  · exact ⟨nofun, fun _ _ => rfl, nofun⟩
  split
  · rename_i id hid
    obtain ⟨hmem, hframe, hnode⟩ := selectByRoutingId_spec p c id hne
    simp only [Option.mem_some_iff, hid, Option.some.injEq, reduceCtorEq]
    exact ⟨fun _ h => h ▸ hmem, fun key hkey => hframe key (Ne.symm hkey), fun _ h _ hi =>
      h ▸ hi ▸ hnode⟩
  · rename_i hid
    exact ⟨fun _ h => Option.some.inj h ▸ randomSelect_mem hne c.rng, fun _ _ => rfl, by simp [hid]⟩

/-! ## Selections of one key -/

variable {p}

theorem selections_split {before : List Selection} {a : Selection}
    (h : p.selections calls = before ++ a :: rest) :
    a.index = (a.policy.selectWorkerImpl a.call).2.1 ∧
      ∃ calls', rest = (a.policy.selectWorkerImpl a.call).1.selections calls' := by
  induction calls generalizing p before with
  | nil => simp [ManualPolicy.selections] at h
  | cons c calls ih =>
    rcases before with - | ⟨b, before⟩
    · obtain ⟨rfl, rfl⟩ := cons.inj h
      exact ⟨rfl, calls, rfl⟩
    · exact ih (cons.inj h).2

theorem selections_frame {mid : List Selection} {b : Selection} {key : String}
    (h : p.selections calls = mid ++ b :: rest)
    (hmid : ∀ s ∈ mid, s.call.routingKey = some key → s.index = none) :
    b.policy.routingMap key = p.routingMap key := by
  induction mid generalizing p calls with
  | nil =>
    cases calls with
    | nil => cases h
    | cons c calls => exact (cons.inj h).1 ▸ rfl
  | cons s mid ih =>
    cases calls with
    | nil => cases h
    | cons c calls =>
      obtain ⟨rfl, hrest⟩ := cons.inj h
      rw [ih hrest (forall_mem_cons.mp hmid).2]
      exact (selectWorkerImpl_spec p c).2.1 key (hmid _ mem_cons_self)

/-- Two selections of the key, `mid` between them without one. -/
structure Consecutive (key : String) (a : Selection) (mid : List Selection) (b : Selection) :
    Prop where
  first : a.call.routingKey = some key
  second : b.call.routingKey = some key
  between : ∀ s ∈ mid, s.call.routingKey = some key → s.index = none

/-- The workers of the call have different urls, and no candidate of the key older than `url`
is healthy. -/
structure Settled (key : String) (url : String) (b : Selection) : Prop where
  distinct : (b.call.workers.map (·.url)).Nodup
  older : ∀ node ∈ b.policy.routingMap key, ∀ old ∈ node.candiWorkerUrls.takeWhile (· ≠ url),
    ∀ w ∈ b.call.workers, w.url = old → ¬ w.available

theorem find_of_available (hdistinct : (workers.map (·.url)).Nodup) (hw : w ∈ workers)
    (havail : w.available) :
    ∃ idx ∈ getHealthyWorkerIndices workers, findWorkerIndexByUrl workers w.url = some idx := by
  obtain ⟨idx, hlt, rfl⟩ := getElem_of_mem hw
  refine ⟨idx, mem_getHealthyWorkerIndices.mpr ⟨_, getElem?_eq_getElem hlt, havail⟩, ?_⟩
  refine findIdx?_eq_some_iff_getElem.mpr ⟨hlt, by simp, fun j hj => ?_⟩
  have hne := pairwise_iff_getElem.mp (pairwise_map.mp hdistinct) j idx (by omega) hlt hj
  simpa using hne

theorem findHealthyWorker_of_older (hurl : url ∈ urls)
    (hfind : findWorkerIndexByUrl workers url = some idx)
    (hidx : idx ∈ getHealthyWorkerIndices workers)
    (holder : ∀ old ∈ urls.takeWhile (· ≠ url), ∀ w ∈ workers, w.url = old → ¬ w.available) :
    findHealthyWorker urls workers (getHealthyWorkerIndices workers) = some idx := by
  induction urls with
  | nil => cases hurl
  | cons old urls ih =>
    by_cases hold : old = url
    · simp [findHealthyWorker, hold, hfind, hidx]
    simp only [takeWhile_cons, ne_eq, hold, not_false_eq_true, decide_true, if_true,
      forall_mem_cons] at holder
    have hskip : (findWorkerIndexByUrl workers old).filter
        (fun i => (getHealthyWorkerIndices workers).contains i) = none := by
      refine Option.filter_eq_none_iff.mpr fun i hi hmem => ?_
      obtain ⟨w, hw, havail⟩ := mem_getHealthyWorkerIndices.mp (contains_iff_mem.mp hmem)
      have hwurl := findWorkerIndexByUrl_eq_some hi
      exact holder.1 w (mem_of_getElem? hw) (by simpa [urlAt, hw] using hwurl) havail
    rw [findHealthyWorker, findSome?_cons, hskip]
    exact ih ((mem_cons.mp hurl).resolve_left (Ne.symm hold)) holder.2

theorem urlAt_of_worker {s : Selection} (h : s.worker = some w) :
    ∃ i, s.index = some i ∧ urlAt s.call.workers i = w.url := by
  obtain ⟨i, hi, hw⟩ := Option.bind_eq_some_iff.mp h
  exact ⟨i, hi, by simp [urlAt, hw]⟩

def workerA (healthy : Bool) : Worker := ⟨"a", healthy, true, 0, 0⟩

def workerB : Worker := ⟨"b", true, true, 0, 0⟩

/-- The first worker of the key fails and recovers. -/
def failover : List SelectCall :=
  [true, false, true].map fun healthy => ⟨[workerA healthy, workerB], some "s", 0, 0⟩

end SparkInfer.Gateway.Manual
