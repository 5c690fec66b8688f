import Mathlib.Data.List.Rotate
import Mathlib.Data.List.Sort

/-!
# Consistent hashing

`HashRing` puts 150 virtual nodes of each worker on a ring. A lookup walks clockwise from the
position of the key to the first node of a healthy worker. The order in which it meets nodes
(`Ahead`) depends on the key only, so the answer is the first healthy node in that order, whatever
else is on the ring.
-/

namespace SparkInfer.Gateway

open List

variable {e : RingEntry} {l : List RingEntry}

/-- A position on the ring and the url of the worker that has a virtual node there. -/
abbrev RingEntry := ℕ × String

def virtualNodesPerWorker : ℕ := 150

section Walk

/-- Clockwise from the position `k`, `a` comes no later than `b`. -/
def Ahead (k : ℕ) (a b : RingEntry) : Prop :=
  k ≤ a.1 ∧ b.1 < k ∨ (k ≤ a.1 ↔ k ≤ b.1) ∧ a.1 ≤ b.1

/-- The loop of the lookup, `checked` the urls already found unhealthy. -/
def walk (isHealthy : String → Bool) : List RingEntry → List String → Option String
  | [], _ => none
  | (_, url) :: entries, checked =>
    if url ∈ checked then walk isHealthy entries checked
    else if isHealthy url then some url
    else walk isHealthy entries (url :: checked)

variable {k : ℕ} {entries l' : List RingEntry} {isHealthy : String → Bool}

theorem filter_eq_takeWhile (hsorted : entries.Pairwise (·.1 ≤ ·.1)) :
    entries.filter (·.1 < k) = entries.takeWhile (·.1 < k) ∧
      entries.filter (k ≤ ·.1) = entries.dropWhile (·.1 < k) := by
  induction hsorted with
  | nil => exact ⟨rfl, rfl⟩
  | @cons e entries hle _ ih =>
    by_cases he : e.1 < k
    · simpa [he] using ih
    · have hall : ∀ a ∈ entries, k ≤ a.1 := fun a ha => (not_lt.mp he).trans (hle a ha)
      simpa [not_lt.mp he] using hall

theorem rotate_pairwise (hsorted : entries.Pairwise (·.1 ≤ ·.1)) :
    (entries.rotate (entries.takeWhile (·.1 < k)).length).Pairwise (Ahead k) := by
  obtain ⟨htake, hdrop⟩ := filter_eq_takeWhile hsorted
  have hrotate := rotate_append_length_eq (entries.takeWhile (·.1 < k))
    (entries.dropWhile (·.1 < k))
  rw [takeWhile_append_dropWhile, ← htake, ← hdrop] at hrotate
  rw [← htake, hrotate, pairwise_append]
  simp only [mem_filter, decide_eq_true_eq, pairwise_filter]
  refine ⟨hsorted.imp ?_, hsorted.imp ?_, ?_⟩ <;> simp only [Ahead] <;> omega

theorem walk_eq {checked : List String} (h : ∀ url ∈ checked, ¬ isHealthy url) :
    walk isHealthy entries checked = (entries.filter (isHealthy ·.2)).head?.map Prod.snd := by
  induction entries generalizing checked with
  | nil => rfl
  | cons e entries ih =>
    rw [walk]
    split_ifs with hchecked hhealthy
    · simp [ih h, h _ hchecked]
    · simp [hhealthy]
    · simp [ih (forall_mem_cons.mpr ⟨hhealthy, h⟩), hhealthy]

theorem head?_eq_of_mem_iff (hl : l.Pairwise (Ahead k)) (hl' : l'.Pairwise (Ahead k))
    (hmem : ∀ e, e ∈ l ↔ e ∈ l') (hinj : ∀ a ∈ l, ∀ b ∈ l, a.1 = b.1 → a = b) :
    l.head? = l'.head? := by
  rcases l with - | ⟨a, l⟩ <;> rcases l' with - | ⟨b, l'⟩
  · rfl
  · exact absurd ((hmem b).mpr mem_cons_self) not_mem_nil
  · exact absurd ((hmem a).mp mem_cons_self) not_mem_nil
  have ha := (hmem a).mp mem_cons_self
  have hb := (hmem b).mpr mem_cons_self
  refine congrArg some (hinj a mem_cons_self b hb ?_)
  rcases mem_cons.mp hb with rfl | hb
  · rfl
  rcases mem_cons.mp ha with rfl | ha
  · rfl
  have hab := rel_of_pairwise_cons hl hb
  have hba := rel_of_pairwise_cons hl' ha
  simp only [Ahead] at hab hba
  omega

end Walk

variable (hash : List UInt8 → ℕ)

def leBytes (n : ℕ) : List UInt8 := (range 8).map fun i => UInt8.ofNat (n >>> (8 * i))

-- `hash` stands for the first eight bytes of blake3.
def nodePosition (url : String) (vnode : ℕ) : ℕ :=
  hash (url.toUTF8.toList ++ "#".toUTF8.toList ++ leBytes vnode)

def hashPosition (s : String) : ℕ := hash s.toUTF8.toList

def HashRing.new (workers : List String) : List RingEntry :=
  (workers.flatMap fun url =>
    (range virtualNodesPerWorker).map fun vnode => (nodePosition hash url vnode, url)).mergeSort
    fun a b => a.1 ≤ b.1

def findHealthyUrl (entries : List RingEntry) (key : String) (isHealthy : String → Bool) :
    Option String :=
  let start := (entries.takeWhile (·.1 < hashPosition hash key)).length
  walk isHealthy (entries.rotate start) []

/-- What the lookup of the key answers on the ring of the workers. -/
def answer (key : String) (workers : List String) (isHealthy : String → Bool) : Option String :=
  findHealthyUrl hash (HashRing.new hash workers) key isHealthy

/-- No position is shared by virtual nodes of different workers. -/
def DistinctPositions (workers : List String) : Prop :=
  ∀ u ∈ workers, ∀ u' ∈ workers, ∀ v < virtualNodesPerWorker, ∀ v' < virtualNodesPerWorker,
    nodePosition hash u v = nodePosition hash u' v' → u = u'

variable {hash} {workers workers' : List String} {h h' : String → Bool}

theorem mem_new : e ∈ HashRing.new hash workers ↔
    e.2 ∈ workers ∧ ∃ v < virtualNodesPerWorker, nodePosition hash e.2 v = e.1 := by
  simp only [HashRing.new, (mergeSort_perm _ _).mem_iff]
  grind

theorem new_sorted : (HashRing.new hash workers).Pairwise (·.1 ≤ ·.1) :=
  (pairwise_mergeSort (by simp; omega) (by simp; omega) _).imp of_decide_eq_true

/-- The healthy nodes in the order in which a lookup of the key meets them. -/
def healthyNodes (hash : List UInt8 → ℕ) (workers : List String) (h : String → Bool)
    (key : String) : List RingEntry :=
  let entries := HashRing.new hash workers
  (entries.rotate (entries.takeWhile (·.1 < hashPosition hash key)).length).filter (h ·.2)

theorem answer_eq (key : String) : answer hash key workers h =
      (healthyNodes hash workers h key).head?.map Prod.snd :=
  walk_eq nofun

theorem mem_healthyNodes {key : String} :
    e ∈ healthyNodes hash workers h key ↔ e ∈ HashRing.new hash workers ∧ h e.2 := by
  simp [healthyNodes]

/-- Nodes of the workers that both sides have and find healthy come first on both sides alike. -/
theorem head?_healthyNodes_congr (q : String → Bool) (hdistinct : DistinctPositions hash workers)
    (hsame : ∀ u, q u → (u ∈ workers ∧ h u ↔ u ∈ workers' ∧ h' u)) (key : String) :
    ((healthyNodes hash workers h key).filter (q ·.2)).head? =
      ((healthyNodes hash workers' h' key).filter (q ·.2)).head? := by
  refine head?_eq_of_mem_iff (((rotate_pairwise new_sorted).filter _).filter _)
    (((rotate_pairwise new_sorted).filter _).filter _) (fun e => ?_) fun a ha b hb hab => ?_
  · simp only [mem_filter, mem_healthyNodes, mem_new]
    have := hsame e.2
    tauto
  simp only [mem_filter, mem_healthyNodes, mem_new] at ha hb
  obtain ⟨⟨⟨hau, v, hv, hav⟩, -⟩, -⟩ := ha
  obtain ⟨⟨⟨hbu, v', hv', hbv⟩, -⟩, -⟩ := hb
  exact Prod.ext hab (hdistinct _ hau _ hbu v hv v' hv' (by rw [hav, hbv, hab]))

theorem answer_congr (hdistinct : DistinctPositions hash workers)
    (hsame : ∀ u, u ∈ workers ∧ h u ↔ u ∈ workers' ∧ h' u) (key : String) :
    answer hash key workers h = answer hash key workers' h' := by
  have hhead := head?_healthyNodes_congr (fun _ => true) hdistinct (fun u _ => hsame u) key
  rw [filter_true, filter_true] at hhead
  rw [answer_eq, answer_eq, hhead]

theorem answer_eq_none (key : String) :
    answer hash key workers h = none ↔ ∀ u ∈ workers, ¬ h u := by
  rw [answer_eq, Option.map_eq_none_iff, head?_eq_none_iff, eq_nil_iff_forall_not_mem]
  simp only [mem_healthyNodes, mem_new]
  constructor
  · exact fun hnone u hu hh => hnone (nodePosition hash u 0, u) ⟨⟨hu, 0, by decide, rfl⟩, hh⟩
  · exact fun hall e he => hall e.2 he.1.1 he.2

theorem head?_filter_ne {w : String} (h : l.head?.map Prod.snd ≠ some w) :
    (l.filter (·.2 ≠ w)).head? = l.head? := by
  rcases l with - | ⟨e, l⟩
  · rfl
  · rw [filter_cons_of_pos (by simpa using h)]
    rfl

end SparkInfer.Gateway
