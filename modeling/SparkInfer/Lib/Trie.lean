import SparkInfer.Lib.Forest
import Mathlib.Data.List.TakeDrop
import Mathlib.Data.List.Infix
import Mathlib.Algebra.Order.Group.Nat
import Mathlib.Algebra.BigOperators.Group.List.Basic

/-!
# Paged radix tries

Every node of a tree carries a label, a nonempty word of key symbols paired with
values whose length is a multiple of the page size; siblings differ in the first
page of their keys.  Read from the root, such a trie is a finite map from
page-aligned key words to value words: its entries are the paths cut at page
boundaries.  Splitting a node keeps the map, attaching a leaf adds the cuts of
one path, detaching a leaf drops the cuts inside its label.
-/

namespace SparkInfer.Lib

open List Finset Forest Forest.Spine

structure Trie (ι α : Type*) extends Forest ι where
  label : ι → List α

namespace Trie

variable {ι A V : Type*}
variable {α : Type*} {n p m x : ι} {l l' e lp : List (A × V)} {c b : ℕ} {w : List A}
variable {t : Trie ι (A × V)} {ns : List ι}

abbrev keys (l : List (A × V)) : List A := l.map Prod.fst

def word {α : Type*} (t : Trie ι α) (ns : List ι) : List α := ns.flatMap t.label

@[simp] theorem word_append (t : Trie ι α) (ns ms : List ι) :
    t.word (ns ++ ms) = t.word ns ++ t.word ms := by
  simp [word]

@[simp] theorem word_cons (t : Trie ι α) : t.word (n :: ns) = t.label n ++ t.word ns := by
  simp [word]

@[simp] theorem word_nil (t : Trie ι α) : t.word [] = [] := rfl

/-- `Path t n l`: the labels from the root down to `n` spell `l`. -/
def Path {α : Type*} (t : Trie ι α) (n : ι) (l : List α) : Prop :=
  ∃ ns, t.Spine n ns ∧ l = t.word ns

theorem Path.unique {t : Trie ι α} {l l' : List α} (h : t.Path n l) (h' : t.Path n l') :
    l = l' := by
  obtain ⟨ns, hns, rfl⟩ := h
  obtain ⟨ms, hms, rfl⟩ := h'
  rw [hns.unique hms]

structure WF (t : Trie ι (A × V)) (b : ℕ) : Prop extends t.toForest.Rooted where
  dvd : ∀ n ∈ t.nodes, n ≠ t.root → b ∣ (t.label n).length
  ne_nil : ∀ n ∈ t.nodes, n ≠ t.root → t.label n ≠ []
  sibling : ∀ n ∈ t.nodes, ∀ m ∈ t.nodes, n ≠ t.root → m ≠ t.root →
    t.parent n = t.parent m → keys ((t.label n).take b) = keys ((t.label m).take b) → n = m

/-- The entries of the map a trie stands for. -/
def Entry (t : Trie ι (A × V)) (b : ℕ) (e : List (A × V)) : Prop :=
  ∃ n l c, t.Path n l ∧ b ∣ c ∧ e = l.take c

/-- No child of `n` starts with the first page of `rest`. -/
def Stuck (t : Trie ι (A × V)) (b : ℕ) (n : ι) (rest : List A) : Prop :=
  ∀ c ∈ t.nodes, c ≠ t.root → t.parent c = some n → keys ((t.label c).take b) ≠ rest.take b

/-- `n` is where the walk along `w` ends, after `l`. -/
structure Located (t : Trie ι (A × V)) (b : ℕ) (w : List A) (n : ι) (l : List (A × V)) : Prop where
  path : t.Path n l
  key : keys l = w.take l.length
  stuck : t.Stuck b n (w.drop l.length)

section WF

variable {xs : List ι}

theorem WF.page_le_label (h : t.WF b) (hn : n ∈ t.nodes) (hne : n ≠ t.root) :
    b ≤ (t.label n).length :=
  Nat.le_of_dvd (length_pos_of_ne_nil (h.ne_nil n hn hne)) (h.dvd n hn hne)

theorem WF.dvd_word (h : t.WF b) (hns : t.Spine n ns) : b ∣ (t.word ns).length := by
  induction hns with
  | root => simp
  | @snoc n p ns hmem hne _ _ ih =>
    rw [word_append, length_append, word_cons, word_nil, append_nil]
    exact Nat.dvd_add ih (h.dvd n hmem hne)

theorem WF.dvd_path (h : t.WF b) (hl : t.Path n l) : b ∣ l.length := by
  obtain ⟨ns, hns, rfl⟩ := hl
  exact h.dvd_word hns

theorem WF.path_exists (h : t.WF b) (hn : n ∈ t.nodes) : ∃ l, t.Path n l := by
  obtain ⟨ns, hns⟩ := h.spine n hn
  exact ⟨_, ns, hns, rfl⟩

theorem WF.mem_of_path (h : t.WF b) (hl : t.Path n l) : n ∈ t.nodes := by
  obtain ⟨ns, hns, -⟩ := hl
  exact h.mem_of_spine hns

theorem path_root (t : Trie ι (A × V)) : t.Path t.root [] :=
  ⟨[], .root, rfl⟩

theorem Path.child (hp : t.Path p l) (hn : n ∈ t.nodes) (hne : n ≠ t.root)
    (hpar : t.parent n = some p) : t.Path n (l ++ t.label n) := by
  obtain ⟨ps, hps, rfl⟩ := hp
  exact ⟨_, .snoc hn hne hpar hps, by simp⟩

theorem Path.parent (h : t.Path n l) (hne : n ≠ t.root) :
    ∃ p lp, n ∈ t.nodes ∧ t.parent n = some p ∧ t.Path p lp ∧ l = lp ++ t.label n := by
  obtain ⟨ns, hns, rfl⟩ := h
  obtain ⟨p, ps, hmem, hpar, hp, rfl⟩ := parent hns hne
  exact ⟨p, t.word ps, hmem, hpar, ⟨ps, hp, rfl⟩, by simp⟩

variable (h : t.WF b)
include h

theorem WF.spine_isInitial (hn : t.Spine n ns) (hx : t.Spine x xs)
    (hkeys : keys ((t.word xs).take (t.word ns).length) = keys (t.word ns)) : ns <+: xs := by
  induction hn with
  | root => exact nil_prefix
  | @snoc n p ns hmem hne hpar hp ih =>
    simp only [word_append, word_cons, word_nil, append_nil] at hkeys
    have hp' : keys ((t.word xs).take (t.word ns).length) = keys (t.word ns) := by
      have htake := congrArg (take (t.word ns).length) hkeys
      rwa [keys, ← map_take, ← map_take, take_take, take_left, min_eq_left (by simp)] at htake
    obtain ⟨rest, hrest⟩ := ih hp'
    have hpage := h.page_le_label hmem hne
    have hlen := congrArg length hkeys
    simp only [length_map, length_take, length_append] at hlen
    cases rest with
    | nil =>
      rw [← hrest, append_nil] at hlen
      have hpos := length_pos_of_ne_nil (h.ne_nil n hmem hne)
      omega
    | cons c rest =>
      rw [← hrest] at hx
      obtain ⟨hc, hcne, hcpar⟩ := hp.child hx
      have hcpage := h.page_le_label hc hcne
      -- the page after `ns` is the first page of both `n` and `c`
      have heq : keys ((t.label c).take b) = keys ((t.label n).take b) := by
        have hdrop := congrArg (fun l => (l.drop (t.word ns).length).take b) hkeys
        rw [← hrest] at hdrop
        simp only [word_append, word_cons, ← map_drop, ← map_take,
          drop_left, drop_take, take_take, length_append] at hdrop
        rwa [min_eq_left (by omega), take_append_of_le_length hcpage] at hdrop
      have hcn : c = n := h.sibling c hc n hmem hcne hne (by rw [hcpar, hpar]) heq
      rw [← hrest, hcn]
      exact ⟨rest, by simp⟩

/-- Where a path goes on beyond that of `n`, it does so through a child of `n`. -/
theorem WF.next_on_path (hn : t.Path n l) (hx : t.Path x l')
    (hkeys : keys (l'.take l.length) = keys l) (hlt : l.length < l'.length) :
    ∃ c ∈ t.nodes, c ≠ t.root ∧ t.parent c = some n ∧ t.Covers c x ∧ l ++ t.label c <+: l' := by
  obtain ⟨ns, hns, rfl⟩ := hn
  obtain ⟨xs, hxs, rfl⟩ := hx
  obtain ⟨rest, rfl⟩ := h.spine_isInitial hns hxs hkeys
  cases rest with
  | nil =>
    rw [append_nil] at hlt
    exact absurd hlt (lt_irrefl _)
  | cons c rest =>
    obtain ⟨hmem, hne, hpar⟩ := child hns hxs
    refine ⟨c, hmem, hne, hpar, ⟨_, hxs, by simp⟩, t.word rest, ?_⟩
    rw [word_append, word_cons, append_assoc]

theorem WF.take_eq (hn : t.Path n l) (hx : t.Path x l') (hb : b ∣ c)
    (hc : c ≤ l.length) (hc' : c ≤ l'.length) (hkeys : keys (l.take c) = keys (l'.take c)) :
    l.take c = l'.take c := by
  obtain ⟨ns, hns, rfl⟩ := hn
  induction hns with
  | root =>
    have hc0 : c = 0 := by simpa using hc
    simp [hc0]
  | @snoc n p ns hmem hne hpar hp ih =>
    simp only [word_append, word_cons, word_nil, append_nil] at hc hkeys ⊢
    by_cases hle : c ≤ (t.word ns).length
    · rw [take_append_of_le_length hle] at hkeys ⊢
      exact ih hle hkeys
    · -- the cut lies inside `n`, so the other path runs through `n` as well
      have hdvd := h.dvd_word hp
      obtain ⟨k, hk⟩ : ∃ k, c = (t.word ns).length + k := ⟨c - (t.word ns).length, by omega⟩
      have hbk : b ≤ k := Nat.le_of_dvd (by omega) ((Nat.dvd_add_right hdvd).mp (hk ▸ hb))
      have hpre : keys (l'.take (t.word ns).length) = keys (t.word ns) := by
        have htake := congrArg (List.take (t.word ns).length) hkeys
        simp only [← map_take, take_take, take_left,
          Nat.min_eq_left (show (t.word ns).length ≤ c by omega)] at htake
        exact htake.symm
      obtain ⟨d, hd, hdne, hdpar, -, rest, rfl⟩ := h.next_on_path ⟨ns, hp, rfl⟩ hx hpre (by omega)
      have hdpage := h.page_le_label hd hdne
      have heq : keys ((t.label n).take b) = keys ((t.label d).take b) := by
        have hdrop := congrArg (fun l => (l.drop (t.word ns).length).take b) hkeys
        simp only [append_assoc, ← map_drop, ← map_take, drop_left, drop_take, take_take, hk,
          Nat.add_sub_cancel_left, Nat.min_eq_left hbk, take_append_of_le_length hdpage] at hdrop
        exact hdrop
      have hnd : n = d := h.sibling n hmem d hd hne hdne (by rw [hdpar, hpar]) heq
      rw [← hnd, take_append_of_le_length hc]

theorem WF.entry_unique {e' : List (A × V)} (he : t.Entry b e) (he' : t.Entry b e')
    (hkeys : keys e = keys e') : e = e' := by
  have hcut : ∀ {n : ι} {l : List (A × V)} {c : ℕ}, t.Path n l → b ∣ c →
      b ∣ (l.take c).length ∧ l.take c = l.take (l.take c).length := by
    intro n l c hl hc
    rw [length_take]
    rcases le_total c l.length with hcl | hcl
    · rw [min_eq_left hcl]
      exact ⟨hc, rfl⟩
    · rw [min_eq_right hcl, take_of_length_le hcl, take_length]
      exact ⟨h.dvd_path hl, rfl⟩
  obtain ⟨n, l, c, hl, hc, rfl⟩ := he
  obtain ⟨m, l', c', hl', hc', rfl⟩ := he'
  obtain ⟨hd, hself⟩ := hcut hl hc
  obtain ⟨-, hself'⟩ := hcut hl' hc'
  have hlen : (l.take c).length = (l'.take c').length := by
    simpa using congrArg length hkeys
  rw [hself, hself', ← hlen] at hkeys
  rw [hself, hself', ← hlen]
  refine h.take_eq hl hl' hd (length_take_le' c l) ?_ hkeys
  rw [hlen]
  exact length_take_le' c' l'

theorem WF.entry_dvd (he : t.Entry b e) : b ∣ e.length := by
  obtain ⟨n, l, c, hl, hc, rfl⟩ := he
  rw [length_take]
  rcases le_total c l.length with hcl | hcl
  · rwa [min_eq_left hcl]
  · rw [min_eq_right hcl]
    exact h.dvd_path hl

theorem entry_of_path (hl : t.Path n l) : t.Entry b l :=
  ⟨n, l, l.length, hl, h.dvd_path hl, l.take_length.symm⟩

omit h in
theorem Entry.take (he : t.Entry b e) (hc : b ∣ c) : t.Entry b (e.take c) := by
  obtain ⟨n, l, d, hl, hd, rfl⟩ := he
  refine ⟨n, l, min c d, hl, ?_, take_take⟩
  rcases le_total c d with h | h
  · rwa [min_eq_left h]
  · rwa [min_eq_right h]

/-- The walk along `w` ends at the longest entry whose key is a prefix of `w`. -/
theorem WF.longest (hloc : t.Located b w n l) (he : t.Entry b e)
    (hkeys : keys e = w.take e.length) : e.length ≤ l.length := by
  by_contra hlt
  have hdvd := h.entry_dvd he
  obtain ⟨x, l', c, hx, -, rfl⟩ := he
  obtain ⟨k, hk⟩ : ∃ k, (l'.take c).length = l.length + k :=
    ⟨(l'.take c).length - l.length, by omega⟩
  have hbk : b ≤ k :=
    Nat.le_of_dvd (by omega) ((Nat.dvd_add_right (h.dvd_path hloc.path)).mp (hk ▸ hdvd))
  have hcle : l.length + k ≤ c := hk ▸ length_take_le c _
  have hxle : l.length + k ≤ l'.length := hk ▸ length_take_le' c _
  have hfull : ∀ d ≤ l.length + k, keys (l'.take d) = w.take d := by
    intro d hd
    have htake := congrArg (take d) hkeys
    rwa [hk, ← map_take, take_take, take_take, min_eq_left (hd.trans hcle), min_eq_left hd] at htake
  have hpre : keys (l'.take l.length) = keys l := by
    rw [hfull _ (by omega), hloc.key]
  obtain ⟨d, hd, hdne, hdpar, -, rest, rfl⟩ := h.next_on_path hloc.path hx hpre (by omega)
  have hdpage := h.page_le_label hd hdne
  apply hloc.stuck d hd hdne hdpar
  have hpage := congrArg (drop l.length) (hfull (l.length + b) (by omega))
  rwa [← map_drop, append_assoc, drop_take, drop_left, Nat.add_sub_cancel_left,
    take_append_of_le_length hdpage, drop_take, Nat.add_sub_cancel_left] at hpage

theorem WF.eq_of_located (hloc : t.Located b w n l) (he : t.Entry b e)
    (hkeys : keys e = w) : l = e := by
  have hlen : e.length = w.length := by rw [← hkeys, length_map]
  have hle : e.length ≤ l.length := h.longest hloc he (by rw [hkeys, hlen, take_length])
  apply h.entry_unique (entry_of_path h hloc.path) he
  rw [hloc.key, hkeys, take_of_length_le (hlen ▸ hle)]

end WF

/-! ## Edits -/

variable [DecidableEq ι]

/-- Cut the label of `c` after `k` symbols; `m` takes the first part. -/
def split {α : Type*} (t : Trie ι α) (c m : ι) (k : ℕ) : Trie ι α where
  toForest := t.toForest.split c m
  label := Function.update (Function.update t.label m ((t.label c).take k)) c
    ((t.label c).drop k)

def attach {α : Type*} (t : Trie ι α) (p m : ι) (lab : List α) : Trie ι α where
  toForest := t.toForest.attach p m
  label := Function.update t.label m lab

def detach {α : Type*} (t : Trie ι α) (x : ι) : Trie ι α where
  toForest := t.toForest.detach x
  label := t.label

section Split

variable {k : ℕ} {c : ι}
variable (h : t.WF b) (hc : c ∈ t.nodes) (hroot : c ≠ t.root) (hm : m ∉ t.nodes)
include hc hm

theorem split_label_new : (t.split c m k).label m = (t.label c).take k := by
  have hmc : m ≠ c := fun hmc => hm (hmc ▸ hc)
  simp [split, hmc]

omit hc hm in
theorem split_label_child : (t.split c m k).label c = (t.label c).drop k := by
  simp [split]

omit hc hm in
theorem split_label_of_ne (hnm : n ≠ m) (hnc : n ≠ c) : (t.split c m k).label n = t.label n := by
  simp [split, hnm, hnc]

theorem word_split (hns : ∀ x ∈ ns, x ∈ t.nodes) :
    (t.split c m k).word (through c m ns) = t.word ns := by
  induction ns with
  | nil => rfl
  | cons x xs ih =>
    have hx : x ≠ m := fun hxm => hm (hxm ▸ hns x (by simp))
    have hhead : (t.split c m k).word (through c m [x]) = t.label x := by
      by_cases hxc : x = c
      · subst hxc
        simp [through, split_label_new hc hm, split_label_child]
      · simp [through, hxc, split_label_of_ne hx hxc]
    rw [← singleton_append, through_append, word_append, hhead,
      ih (fun y hy => hns y (by simp [hy])), word_append, word_cons, word_nil, append_nil]

include h hroot

theorem Path.split (hl : t.Path n l) : (t.split c m k).Path n l := by
  obtain ⟨ns, hns, rfl⟩ := hl
  refine ⟨_, hns.split hc hroot hm h.toRooted, ?_⟩
  rw [word_split hc hm (fun x hx => (hns.mem hx).1)]

theorem Path.split_new (hl : t.Path c (lp ++ t.label c)) :
    (t.split c m k).Path m (lp ++ (t.label c).take k) := by
  obtain ⟨cs, hcs, heq⟩ := hl
  obtain ⟨p, ps, -, hpar, hp, rfl⟩ := Forest.Spine.parent hcs hroot
  have hlp : lp = t.word ps := by
    rw [word_append, word_cons, word_nil, append_nil] at heq
    exact (append_inj' heq rfl).1
  refine ⟨ps ++ [m], Forest.Spine.split_new hc hroot hm h.toRooted hcs, ?_⟩
  have hps : through c m ps = ps := through_of_not_mem (hp.parent_not_mem hc hroot hpar)
  have hword := word_split (k := k) hc hm (fun x hx => (hp.mem hx).1)
  rw [hps] at hword
  rw [word_append, hword, word_cons, word_nil, append_nil, split_label_new hc hm, hlp]

omit [DecidableEq ι] hc hroot in
theorem parent_ne_new (hn : n ∈ t.nodes) (hne : n ≠ t.root) : t.parent n ≠ some m := by
  obtain ⟨p, hp, hpar⟩ := h.toRooted.parent_mem hn hne
  rw [hpar]
  rintro ⟨⟩
  exact hm hp

theorem WF.split (hbk : b ∣ k) (hk : 0 < k) (hlt : k < (t.label c).length) :
    (t.split c m k).WF b := by
  have hbk' : b ≤ k := Nat.le_of_dvd hk hbk
  have hnew : ∀ n ∈ t.nodes, n ≠ m := fun n hn hnm => hm (hnm ▸ hn)
  -- first pages: the new node inherits that of `c`, every other node keeps its own
  have hpage : keys (((t.split c m k).label m).take b) = keys ((t.label c).take b) := by
    rw [split_label_new hc hm, take_take, min_eq_left hbk']
  have hlabel : ∀ n ∈ insert m t.nodes, n ≠ t.root →
      b ∣ ((t.split c m k).label n).length ∧ (t.split c m k).label n ≠ [] := by
    intro n hn hne
    rw [← length_pos_iff]
    rcases mem_insert.mp hn with rfl | hn
    · rw [split_label_new hc hm, length_take, min_eq_left hlt.le]
      exact ⟨hbk, hk⟩
    by_cases hnc : n = c
    · rw [hnc, split_label_child, length_drop]
      exact ⟨Nat.dvd_sub (h.dvd c hc hroot) hbk, Nat.sub_pos_of_lt hlt⟩
    · rw [split_label_of_ne (hnew n hn) hnc]
      exact ⟨h.dvd n hn hne, length_pos_of_ne_nil (h.ne_nil n hn hne)⟩
  refine ⟨h.toRooted.split hc hroot hm, fun n hn hne => (hlabel n hn hne).1,
    fun n hn hne => (hlabel n hn hne).2, ?_⟩
  have hold : ∀ n ∈ t.nodes, n ≠ c →
      (t.split c m k).parent n = t.parent n ∧ (t.split c m k).label n = t.label n :=
    fun n hn hnc => ⟨split_parent_of_ne (hnew n hn) hnc, split_label_of_ne (hnew n hn) hnc⟩
  have hpm : (t.split c m k).parent m = t.parent c := split_parent_new hc hm
  have hpc : (t.split c m k).parent c = some m := split_parent_child
  have hcm : t.parent c ≠ some m := parent_ne_new h hm hc hroot
  -- a sibling of the new node was a sibling of `c`; `c` has no sibling left
  have hsib : ∀ n ∈ t.nodes, n ≠ t.root → (t.split c m k).parent n = (t.split c m k).parent m →
      keys (((t.split c m k).label n).take b) = keys (((t.split c m k).label m).take b) →
      n = m := by
    intro n hn hne hpar hkeys
    by_cases hnc : n = c
    · rw [hnc, hpc, hpm] at hpar
      exact absurd hpar.symm hcm
    obtain ⟨hpn, hln⟩ := hold n hn hnc
    rw [hpn, hpm] at hpar
    rw [hln, hpage] at hkeys
    exact absurd (h.sibling n hn c hc hne hroot hpar hkeys) hnc
  have hchild : ∀ n ∈ t.nodes, n ≠ t.root → (t.split c m k).parent n = some m → n = c := by
    intro n hn hne hpar
    by_contra hnc
    rw [(hold n hn hnc).1] at hpar
    exact parent_ne_new h hm hn hne hpar
  intro n hn x hx hne hxe hpar hkeys
  rcases mem_insert.mp hn with hnm | hn
  · rcases mem_insert.mp hx with hxm | hx
    · rw [hnm, hxm]
    · rw [hnm] at hpar hkeys ⊢
      exact (hsib x hx hxe hpar.symm hkeys.symm).symm
  rcases mem_insert.mp hx with hxm | hx
  · rw [hxm] at hpar hkeys ⊢
    exact hsib n hn hne hpar hkeys
  by_cases hnc : n = c
  · rw [hnc, hpc] at hpar
    rw [hnc, hchild x hx hxe hpar.symm]
  by_cases hxc : x = c
  · rw [hxc, hpc] at hpar
    exact absurd (hchild n hn hne hpar) hnc
  obtain ⟨hpn, hln⟩ := hold n hn hnc
  obtain ⟨hpx, hlx⟩ := hold x hx hxc
  rw [hpn, hpx] at hpar
  rw [hln, hlx] at hkeys
  exact h.sibling n hn x hx hne hxe hpar hkeys

theorem entry_split (hbk : b ∣ k) (hk : 0 < k) (hlt : k < (t.label c).length) :
    (t.split c m k).Entry b e ↔ t.Entry b e := by
  have hwf := h.split hc hroot hm hbk hk hlt
  constructor
  · rintro ⟨n, l, d, hl, hd, rfl⟩
    have hn := hwf.mem_of_path hl
    rcases mem_insert.mp hn with rfl | hn
    · obtain ⟨lc, hlc⟩ := h.path_exists hc
      obtain ⟨p, lp, -, -, hp, rfl⟩ := hlc.parent hroot
      have hnew := Path.split_new (k := k) h hc hroot hm hlc
      rw [hl.unique hnew]
      have hcut : lp ++ (t.label c).take k = (lp ++ t.label c).take (lp.length + k) := by
        rw [take_append, take_of_length_le (Nat.le_add_right _ _), Nat.add_sub_cancel_left]
      have hentry : t.Entry b (lp ++ (t.label c).take k) :=
        ⟨c, _, _, hlc, Nat.dvd_add (h.dvd_path hp) hbk, hcut⟩
      exact hentry.take hd
    · obtain ⟨l', hl'⟩ := h.path_exists hn
      rw [hl.unique (hl'.split h hc hroot hm)]
      exact ⟨n, l', d, hl', hd, rfl⟩
  · rintro ⟨n, l, d, hl, hd, rfl⟩
    exact ⟨n, l, d, hl.split h hc hroot hm, hd, rfl⟩

end Split

section Attach

variable {lab : List (A × V)}
variable (h : t.WF b) (hp : p ∈ t.nodes) (hm : m ∉ t.nodes)
include hm

theorem Path.attach (hl : t.Path n l) : (t.attach p m lab).Path n l := by
  obtain ⟨ns, hns, rfl⟩ := hl
  refine ⟨ns, hns.attach hm, ?_⟩
  apply flatMap_congr
  intro x hx
  have hxm : x ≠ m := fun hxm => hm (hxm ▸ (hns.mem hx).1)
  simp [Trie.attach, hxm]

include h

theorem Path.attach_new (hl : t.Path p lp) : (t.attach p m lab).Path m (lp ++ lab) := by
  have hmem : m ∈ (t.attach p m lab).nodes := mem_insert_self _ _
  have hne : m ≠ (t.attach p m lab).root := fun hmr => hm (hmr ▸ h.root_mem)
  have hpar : (t.attach p m lab).parent m = some p := by simp [Trie.attach, Forest.attach]
  have hlab : (t.attach p m lab).label m = lab := by simp [Trie.attach]
  have hold : (t.attach p m lab).Path p lp := hl.attach hm
  have hpath := hold.child hmem hne hpar
  rwa [hlab] at hpath

include hp

theorem WF.attach (hb : b ∣ lab.length) (hlab : lab ≠ []) (hstuck : t.Stuck b p (keys lab)) :
    (t.attach p m lab).WF b := by
  have hold : ∀ n ∈ t.nodes, (t.attach p m lab).parent n = t.parent n ∧
      (t.attach p m lab).label n = t.label n := by
    intro n hn
    have hnm : n ≠ m := fun hnm => hm (hnm ▸ hn)
    simp [Trie.attach, Forest.attach, hnm]
  have hpar : (t.attach p m lab).parent m = some p := by simp [Trie.attach, Forest.attach]
  have hlabm : (t.attach p m lab).label m = lab := by simp [Trie.attach]
  have hsib : ∀ n ∈ t.nodes, n ≠ t.root → (t.attach p m lab).parent n = some p →
      keys (((t.attach p m lab).label n).take b) ≠ keys (lab.take b) := by
    intro n hn hne hpn
    obtain ⟨hp', hl'⟩ := hold n hn
    rw [hp'] at hpn
    rw [hl', keys, keys, map_take (l := lab)]
    exact hstuck n hn hne hpn
  refine ⟨h.toRooted.attach hp hm, ?_, ?_, ?_⟩
  · intro n hn hne
    rcases mem_insert.mp hn with rfl | hn
    · rwa [hlabm]
    · rw [(hold n hn).2]
      exact h.dvd n hn hne
  · intro n hn hne
    rcases mem_insert.mp hn with rfl | hn
    · rwa [hlabm]
    · rw [(hold n hn).2]
      exact h.ne_nil n hn hne
  intro n hn x hx hne hxe hparent hkeys
  rcases mem_insert.mp hn with hnm | hn
  · rcases mem_insert.mp hx with hxm | hx
    · rw [hnm, hxm]
    · rw [hnm, hpar] at hparent
      rw [hnm, hlabm] at hkeys
      exact absurd hkeys.symm (hsib x hx hxe hparent.symm)
  rcases mem_insert.mp hx with hxm | hx
  · rw [hxm, hpar] at hparent
    rw [hxm, hlabm] at hkeys
    exact absurd hkeys (hsib n hn hne hparent)
  · rw [(hold n hn).1, (hold x hx).1] at hparent
    rw [(hold n hn).2, (hold x hx).2] at hkeys
    exact h.sibling n hn x hx hne hxe hparent hkeys

theorem entry_attach (hb : b ∣ lab.length) (hlab : lab ≠ []) (hstuck : t.Stuck b p (keys lab))
    (hl : t.Path p lp) :
    (t.attach p m lab).Entry b e ↔ t.Entry b e ∨ ∃ d, b ∣ d ∧ e = (lp ++ lab).take d := by
  have hwf := h.attach hp hm hb hlab hstuck
  have hnew : (t.attach p m lab).Path m (lp ++ lab) := Path.attach_new h hm hl
  constructor
  · rintro ⟨n, l, d, hn, hd, rfl⟩
    rcases mem_insert.mp (hwf.mem_of_path hn) with rfl | hmem
    · rw [hn.unique hnew]
      exact .inr ⟨d, hd, rfl⟩
    · obtain ⟨l', hl'⟩ := h.path_exists hmem
      rw [hn.unique (hl'.attach hm)]
      exact .inl ⟨n, l', d, hl', hd, rfl⟩
  · rintro (⟨n, l, d, hn, hd, rfl⟩ | ⟨d, hd, rfl⟩)
    · exact ⟨n, l, d, hn.attach hm, hd, rfl⟩
    · exact ⟨m, _, d, hnew, hd, rfl⟩

end Attach

section Detach

variable (h : t.WF b) (hx : x ∈ t.nodes) (hroot : x ≠ t.root)
variable (hleaf : ∀ c ∈ t.nodes, t.parent c = some x → c = t.root)
include hleaf

theorem Path.detach (hl : t.Path n l) (hn : n ≠ x) : (t.detach x).Path n l := by
  obtain ⟨ns, hns, rfl⟩ := hl
  exact ⟨ns, Forest.Spine.detach hleaf hns hn, rfl⟩

include h hroot

theorem WF.detach : (t.detach x).WF b := by
  refine ⟨h.toRooted.detach hroot hleaf, ?_, ?_, ?_⟩
  · exact fun n hn => h.dvd n (mem_of_mem_erase hn)
  · exact fun n hn => h.ne_nil n (mem_of_mem_erase hn)
  · exact fun n hn m hm => h.sibling n (mem_of_mem_erase hn) m (mem_of_mem_erase hm)

include hx

/-- Detaching a leaf drops the cuts that end inside its label, and no others. -/
theorem entry_detach (hl : t.Path x (lp ++ t.label x)) : (t.detach x).Entry b e ↔
      t.Entry b e ∧ ∀ k, 0 < k → e.length = lp.length + k → e ≠ lp ++ (t.label x).take k := by
  have hwf : (t.detach x).WF b := h.detach hroot hleaf
  obtain ⟨p, lp', -, hpar, hp, heq⟩ := hl.parent hroot
  obtain rfl : lp' = lp := (append_inj' heq rfl).1.symm
  constructor
  · rintro ⟨n, l, d, hn, hd, rfl⟩
    have hmem := mem_erase.mp (hwf.mem_of_path hn)
    obtain ⟨l', hl'⟩ := h.path_exists hmem.2
    have hll := hn.unique (hl'.detach hleaf hmem.1)
    subst hll
    have hentry : t.Entry b (l.take d) := ⟨n, l, d, hl', hd, rfl⟩
    refine ⟨hentry, ?_⟩
    intro k hk hlen heq
    -- the path of `n` would run through `x`, but `x` is on no spine but its own
    have hdle : lp'.length + k ≤ d := hlen ▸ length_take_le d _
    have hcut : ∀ j ≤ lp'.length + k, l.take j = (lp' ++ (t.label x).take k).take j := by
      intro j hj
      rw [← heq, take_take, min_eq_left (hj.trans hdle)]
    have hpre : keys (l.take lp'.length) = keys lp' := by
      rw [hcut _ (by omega), take_left]
    have hllen : lp'.length + k ≤ l.length := hlen ▸ length_take_le' d _
    obtain ⟨c, hc, hcne, hcpar, ⟨ns, hns, hcns⟩, rest, rfl⟩ := h.next_on_path hp hl' hpre (by omega)
    have hcpage := h.page_le_label hc hcne
    have hbk : b ≤ k := by
      have hdvd := h.entry_dvd hentry
      rw [hlen] at hdvd
      exact Nat.le_of_dvd hk ((Nat.dvd_add_right (h.dvd_path hp)).mp hdvd)
    have hpage : (t.label c).take b = (t.label x).take b := by
      have hdrop := congrArg (drop lp'.length) (hcut (lp'.length + b) (by omega))
      rwa [append_assoc, drop_take, drop_take, drop_left, drop_left, Nat.add_sub_cancel_left,
        take_append_of_le_length hcpage, take_take, min_eq_left hbk] at hdrop
    have hcx : c = x := h.sibling c hc x hx hcne hroot (by rw [hcpar, hpar]) (by rw [hpage])
    exact leaf_not_mem hleaf hns hmem.1 (hcx ▸ hcns)
  · rintro ⟨⟨n, l, d, hn, hd, rfl⟩, hne⟩
    by_cases hnx : n = x
    · subst hnx
      have hll := hn.unique hl
      subst hll
      have hpn : p ≠ n := by
        rintro rfl
        exact hroot (hleaf p hx hpar)
      have hpath := hp.detach hleaf hpn
      by_cases hdl : d ≤ lp'.length
      · exact ⟨p, lp', d, hpath, hd, take_append_of_le_length hdl⟩
      rw [take_append, take_of_length_le (by omega)] at hne ⊢
      rcases eq_zero_or_pos ((t.label n).take (d - lp'.length)).length with hz | hpos
      · rw [length_eq_zero_iff] at hz
        rw [hz, append_nil]
        exact entry_of_path hwf hpath
      refine absurd ?_ (hne ((t.label n).take (d - lp'.length)).length hpos (by simp))
      rw [length_take]
      rcases le_total (d - lp'.length) (t.label n).length with hle | hle
      · rw [min_eq_left hle]
      · rw [min_eq_right hle, take_of_length_le hle, take_length]
    · exact ⟨n, l, d, hn.detach hleaf hnx, hd, rfl⟩

end Detach

end Trie

end SparkInfer.Lib
