import SparkInfer.Gateway.HashRing
import SparkInfer.Lib.Run

/-!
# The worker registry

`WorkerRegistry` keeps the registered workers by id and four indexes of them, and a hash ring for
each model. `register` takes the path of a fresh worker whatever url it is given, so the indexes
agree with the workers as long as no url is registered twice.
-/

namespace SparkInfer.Gateway.Registry

open Function Option HashRing List

section Index

variable {K ι : Type*} {index : K → List ι} {R R' : ι → K → Prop}

/-- Each key lists exactly the items that the relation puts under it, each once. -/
structure Lists (index : K → List ι) (R : ι → K → Prop) : Prop where
  nodup : ∀ k, (index k).Nodup
  mem : ∀ k i, i ∈ index k ↔ R i k

variable [DecidableEq K] {i : ι} {k : K}

theorem Lists.push (h : Lists index R) (hi : ¬ R i k) (hR : ∀ j l, R' j l ↔ R j l ∨ j = i ∧ l = k) :
    Lists (update index k (index k ++ [i])) R' := by
  constructor
  · intro l
    by_cases hl : l = k
    · subst hl
      rw [update_self]
      exact (h.nodup l).append (nodup_singleton i) (by simpa [h.mem] using hi)
    · simpa [hl] using h.nodup l
  · intro l j
    by_cases hl : l = k <;> simp [hl, h.mem, hR]

theorem Lists.retain (h : Lists index R) {p : ι → Bool} (hk : ∀ j l, R j l → p j = false → l = k)
    (hR : ∀ j l, R' j l ↔ R j l ∧ p j) : Lists (update index k ((index k).filter p)) R' := by
  constructor
  · intro l
    by_cases hl : l = k
    · simpa [hl] using (h.nodup k).filter p
    · simpa [hl] using h.nodup l
  intro l j
  by_cases hl : l = k
  · simp [hl, h.mem, hR]
  · have := hk j l
    simp [hl, h.mem]
    grind

end Index

inductive WorkerType where
  | regular
  | prefill (bootstrapPort : Option UInt16)
  | decode
  deriving DecidableEq

inductive ConnectionMode where
  | http
  | grpc (port : Option UInt16)
  deriving DecidableEq

structure Worker where
  url : String
  modelId : String
  workerType : WorkerType
  connectionMode : ConnectionMode
  deriving DecidableEq

/-- Ids are drawn from a counter: no id is drawn twice. -/
structure WorkerRegistry where
  workers : ℕ → Option Worker
  modelIndex : String → Option (List Worker)
  hashRings : String → Option (List RingEntry)
  typeWorkers : WorkerType → List ℕ
  connectionWorkers : ConnectionMode → List ℕ
  urlToId : String → Option ℕ
  nextId : ℕ

def WorkerRegistry.new : WorkerRegistry :=
  ⟨fun _ => none, fun _ => none, fun _ => none, fun _ => [], fun _ => [], fun _ => none, 0⟩

namespace WorkerRegistry

variable (hash : List UInt8 → ℕ) (r : WorkerRegistry)

def getByModel (model : String) : List Worker := (r.modelIndex model).getD []

def rebuildHashRing (model : String) : WorkerRegistry :=
  let ring := (r.modelIndex model).map fun workers => HashRing.new hash (workers.map (·.url))
  { r with hashRings := update r.hashRings model ring }

def register (w : Worker) : WorkerRegistry × ℕ :=
  let id := (r.urlToId w.url).getD r.nextId
  let r := { r with
    nextId := r.nextId + 1
    workers := update r.workers id (some w)
    urlToId := update r.urlToId w.url (some id)
    modelIndex := update r.modelIndex w.modelId (some (r.getByModel w.modelId ++ [w])) }
  let r := r.rebuildHashRing hash w.modelId
  ({ r with
    typeWorkers := update r.typeWorkers w.workerType (r.typeWorkers w.workerType ++ [id])
    connectionWorkers := update r.connectionWorkers w.connectionMode
      (r.connectionWorkers w.connectionMode ++ [id]) }, id)

def reserveIdForUrl (url : String) : WorkerRegistry × ℕ :=
  let id := (r.urlToId url).getD r.nextId
  ({ r with nextId := r.nextId + 1, urlToId := update r.urlToId url (some id) }, id)

def remove (id : ℕ) : WorkerRegistry × Option Worker :=
  match r.workers id with
  | none => (r, none)
  | some w =>
    let r := { r with
      workers := update r.workers id none
      urlToId := update r.urlToId w.url none
      modelIndex := update r.modelIndex w.modelId
        ((r.modelIndex w.modelId).map (List.filter (·.url ≠ w.url))) }
    let r := r.rebuildHashRing hash w.modelId
    ({ r with
      typeWorkers := update r.typeWorkers w.workerType
        ((r.typeWorkers w.workerType).filter (· ≠ id))
      connectionWorkers := update r.connectionWorkers w.connectionMode
        ((r.connectionWorkers w.connectionMode).filter (· ≠ id)) }, some w)

def removeByUrl (url : String) : WorkerRegistry × Option Worker :=
  match r.urlToId url with
  | none => (r, none)
  | some id => { r with urlToId := update r.urlToId url none }.remove hash id

end WorkerRegistry

inductive Op where
  | register (w : Worker)
  | reserveIdForUrl (url : String)
  | remove (id : ℕ)
  | removeByUrl (url : String)

variable (hash : List UInt8 → ℕ)

def step (r : WorkerRegistry) : Op → Option WorkerRegistry
  | .register w => some (r.register hash w).1
  | .reserveIdForUrl url => some (r.reserveIdForUrl url).1
  | .remove id => some (r.remove hash id).1
  | .removeByUrl url => some (r.removeByUrl hash url).1

/-- A worker is registered only under a url that no registered worker has. -/
def Fresh (r : WorkerRegistry) : Op → Prop
  | .register w => ∀ id, ∀ w' ∈ r.workers id, w'.url ≠ w.url
  | _ => True

/-- The indexes and rings agree with the registered workers. -/
structure Agrees (r : WorkerRegistry) : Prop where
  models : Lists r.getByModel fun w model => (∃ id, r.workers id = some w) ∧ w.modelId = model
  rings : ∀ model, (r.hashRings model).getD [] = new hash ((r.getByModel model).map (·.url))
  types : Lists r.typeWorkers fun id type => ∃ w ∈ r.workers id, w.workerType = type
  connections : Lists r.connectionWorkers fun id mode => ∃ w ∈ r.workers id, w.connectionMode = mode
  urls : ∀ id, ∀ w ∈ r.workers id, r.urlToId w.url = some id

/-- Ids were drawn, and each for one url. -/
structure Ids (urlToId : String → Option ℕ) (nextId : ℕ) : Prop where
  drawn : ∀ url id, urlToId url = some id → id < nextId
  injective : ∀ url url' id, urlToId url = some id → urlToId url' = some id → url = url'

structure Inv (r : WorkerRegistry) : Prop extends Agrees hash r, Ids r.urlToId r.nextId

section Ids

variable {urlToId : String → Option ℕ} {nextId : ℕ} (h : Ids urlToId nextId) (url : String)

include h

theorem Ids.put : let id := (urlToId url).getD nextId
    Ids (update urlToId url (some id)) (nextId + 1) ∧
      ∀ url', urlToId url' = some id → url' = url := by
  intro id
  have hown : id < nextId + 1 ∧ ∀ url', urlToId url' = some id → url' = url := by
    rcases hid : urlToId url with - | i <;> simp only [id, hid]
    · exact ⟨Nat.lt_succ_self _, fun u hu => absurd (h.drawn u _ hu) (lt_irrefl _)⟩
    · exact ⟨Nat.lt_succ_of_lt (h.drawn url i hid), fun u hu => h.injective u url i hu hid⟩
  refine ⟨⟨fun u i => ?_, fun u u' i => ?_⟩, hown.2⟩ <;> simp only [update_apply]
  · have := h.drawn u i
    grind
  · have := h.injective u u' i
    grind

theorem Ids.erase : Ids (update urlToId url none) nextId := by
  refine ⟨fun u id => ?_, fun u u' id => ?_⟩ <;> simp only [update_apply]
  · have := h.drawn u id
    grind
  · have := h.injective u u' id
    grind

end Ids

variable {hash} {r : WorkerRegistry}

theorem inv_new : Inv hash .new := by
  refine ⟨⟨⟨?_, ?_⟩, ?_, ⟨?_, ?_⟩, ⟨?_, ?_⟩, ?_⟩, ?_, ?_⟩ <;> simp [WorkerRegistry.new,
    WorkerRegistry.getByModel, new]

section Rebuild

variable {r₁ : WorkerRegistry} {k : String} {v : Option (List Worker)}
  (hmodels : r₁.modelIndex = update r.modelIndex k v)

include hmodels

theorem getByModel_update : r₁.getByModel = update r.getByModel k (v.getD []) := by
  funext m
  rw [WorkerRegistry.getByModel, hmodels]
  exact apply_update (fun _ => (getD · [])) r.modelIndex k v m

theorem rings_rebuild (h : Agrees hash r) (hrings : r₁.hashRings = r.hashRings) (m : String) :
    ((r₁.rebuildHashRing hash k).hashRings m).getD [] =
      HashRing.new hash ((r₁.getByModel m).map (·.url)) := by
  rw [getByModel_update hmodels]
  by_cases hm : m = k
  · subst hm
    cases v <;> simp [WorkerRegistry.rebuildHashRing, hmodels, HashRing.new]
  · simpa [WorkerRegistry.rebuildHashRing, hm, hrings] using h.rings m

end Rebuild

section

variable (h : Inv hash r)
include h

theorem Inv.reserve (url : String) : Inv hash (r.reserveIdForUrl url).1 := by
  refine ⟨{ h with urls := fun id w hw => ?_ }, (h.toIds.put url).1⟩
  have := h.urls id w hw
  simp only [WorkerRegistry.reserveIdForUrl]
  grind

theorem Inv.register {w : Worker} (hfresh : Fresh r (.register w)) :
    Inv hash (r.register hash w).1 := by
  obtain ⟨hids, hown⟩ := h.toIds.put w.url
  simp only [WorkerRegistry.register]
  generalize (r.urlToId w.url).getD r.nextId = id at hids hown
  have hnone : r.workers id = none := eq_none_iff_forall_ne_some.mpr fun w' hw' =>
    hfresh id w' hw' (hown _ (h.urls id w' hw'))
  have hput : ∀ id' w', update r.workers id (some w) id' = some w' ↔
      r.workers id' = some w' ∨ id' = id ∧ w' = w := by
    grind
  refine ⟨⟨?_, rings_rebuild rfl h.toAgrees rfl, ?_, ?_, ?_⟩, hids⟩
  · rw [getByModel_update rfl]
    refine h.models.push ?_ ?_
    · rintro ⟨⟨id', hw'⟩, -⟩
      exact hfresh id' w hw' rfl
    · simp only [WorkerRegistry.rebuildHashRing, hput]
      grind
  · refine h.types.push (by simp [hnone]) ?_
    simp only [WorkerRegistry.rebuildHashRing]
    grind
  · refine h.connections.push (by simp [hnone]) ?_
    simp only [WorkerRegistry.rebuildHashRing]
    grind
  · intro id' w' hw'
    have := h.urls id' w'
    have := hfresh id' w'
    simp only [WorkerRegistry.rebuildHashRing] at hw' ⊢
    grind

theorem Inv.remove (id : ℕ) : Inv hash (r.remove hash id).1 := by
  rw [WorkerRegistry.remove]
  split
  · exact h
  rename_i w hw
  have hdel : ∀ id' w', update r.workers id none id' = some w' ↔
      r.workers id' = some w' ∧ id' ≠ id := by
    grind
  have hsame : ∀ id' w', r.workers id' = some w' → (w'.url = w.url ↔ id' = id) := by
    intro id' w' hw'
    have := h.urls id w hw
    have := h.urls id' w' hw'
    grind
  refine ⟨⟨?_, rings_rebuild rfl h.toAgrees rfl, ?_, ?_, ?_⟩, h.toIds.erase w.url⟩
  · have hfilter : ((r.modelIndex w.modelId).map (filter (·.url ≠ w.url))).getD [] =
        (r.getByModel w.modelId).filter (·.url ≠ w.url) := by
      rw [WorkerRegistry.getByModel]
      cases r.modelIndex w.modelId <;> rfl
    rw [getByModel_update rfl, hfilter]
    refine h.models.retain ?_ ?_
    · intro w' m hw'
      grind
    · intro w' m
      simp only [WorkerRegistry.rebuildHashRing, hdel]
      grind
  · refine h.types.retain (by grind) ?_
    simp only [WorkerRegistry.rebuildHashRing]
    grind
  · refine h.connections.retain (by grind) ?_
    simp only [WorkerRegistry.rebuildHashRing]
    grind
  · intro id' w' hw'
    have := h.urls id' w'
    simp only [WorkerRegistry.rebuildHashRing, mem_def] at hw' ⊢
    grind

theorem Inv.removeByUrl (url : String) : Inv hash (r.removeByUrl hash url).1 := by
  rw [WorkerRegistry.removeByUrl]
  split
  · exact h
  rename_i id hid
  rcases hw : r.workers id with - | w
  · simp only [WorkerRegistry.remove, hw]
    refine ⟨{ h with urls := fun id' w' hw' => ?_ }, h.toIds.erase url⟩
    have := h.urls id' w' hw'
    grind
  · have hurl := h.injective _ _ id (h.urls id w hw) hid
    have hremove := h.remove id
    simpa [WorkerRegistry.remove, hw, hurl] using hremove

theorem Inv.step {op : Op} {r' : WorkerRegistry} (hfresh : Fresh r op)
    (hstep : step hash r op = some r') : Inv hash r' := by
  cases op with
  | register w => exact some.inj hstep ▸ h.register hfresh
  | reserveIdForUrl url => exact some.inj hstep ▸ h.reserve url
  | remove id => exact some.inj hstep ▸ h.remove id
  | removeByUrl url => exact some.inj hstep ▸ h.removeByUrl url

end

/-- The ring has 150 nodes of every url it was built from. -/
theorem countP_new {urls : List String} (hnodup : urls.Nodup) {url : String} (hurl : url ∈ urls) :
    (new hash urls).countP (·.2 = url) = virtualNodesPerWorker := by
  rw [new, (mergeSort_perm _ _).countP_eq]
  have hcount : ∀ l : List String, (l.flatMap fun u => (range virtualNodesPerWorker).map
      fun v => (nodePosition hash u v, u)).countP (·.2 = url) =
      virtualNodesPerWorker * l.count url := by
    intro l
    induction l with
    | nil => rfl
    | cons u l ih =>
      rw [flatMap_cons, countP_append, ih]
      by_cases hu : u = url <;> simp [hu, comp_def, Nat.mul_add, Nat.add_comm]
  rw [hcount, count_eq_one_of_mem hnodup hurl, Nat.mul_one]

def workerOf (model : String) : Worker := ⟨"a", model, .regular, .http⟩

end SparkInfer.Gateway.Registry
