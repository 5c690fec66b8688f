import Mathlib.Data.List.AList
import Mathlib.Data.Set.Insert
import Mathlib.Logic.Relation
import Mathlib.Tactic.Tauto
import SparkInfer.Lib.Run

/-!
# The request tree of a session

A session that is not streaming keeps its requests as the nodes of a tree and finds them by id in
`req_nodes`. A request is appended to a node, or replaces what came after one. Nodes clear
themselves out of `req_nodes`; a replacement without id lets them do so while it iterates over it.
-/

namespace SparkInfer.Streaming.RequestTree

open Function Relation

structure Session where
  rid : ℕ → String
  parent : ℕ → Option ℕ
  children : ℕ → List ℕ
  -- `finished_reason` is set
  finished : ℕ → Bool
  -- `to_finish` is `FINISH_ABORT()`
  aborted : ℕ → Bool
  next : ℕ
  reqNodes : AList fun _ : String => ℕ

namespace Session

def empty : Session :=
  ⟨fun _ => "", fun _ => none, fun _ => [], fun _ => false, fun _ => false, 0, ∅⟩

def abort (s : Session) (n : ℕ) : Session :=
  if s.finished n then s else { s with aborted := update s.aborted n true }

/-- `del req_dict[rid]`, which raises if there is no such key. -/
def del (s : Session) (rid : String) : Option Session :=
  (s.reqNodes.lookup rid).map fun _ => { s with reqNodes := s.reqNodes.erase rid }

/-- Children are younger than their parents, so `next` is always fuel enough. -/
def clear : ℕ → ℕ → Session → Option Session
  | 0, _, _ => none
  | fuel + 1, n, s => do
    let s ← (s.children n).foldlM (fun s c => clear fuel c s) s
    (s.abort n).del (s.rid n)

def clearChildren (s : Session) (n : ℕ) : Option Session :=
  ((s.children n).foldlM (fun s' c => clear s.next c s') s).map fun s =>
    { s with children := update s.children n [] }

/-- The loop over `req_nodes.items()`: its iterator raises once the size has changed. -/
def clearEach (size : ℕ) : List ℕ → Session → Option Session
  | [], s => if s.reqNodes.keys.length = size then some s else none
  | n :: ns, s =>
    if s.reqNodes.keys.length = size then (clear s.next n s).bind (clearEach size ns) else none

/-- `SessionReqNode(new_req, last_req_node)`, entered under its id. -/
def register (s : Session) (parent : Option ℕ) (rid : String) : Session where
  rid n := if n = s.next then rid else s.rid n
  parent n := if n = s.next then parent else s.parent n
  children n :=
    if n = s.next then [] else if parent = some n then s.children n ++ [s.next] else s.children n
  finished n := if n = s.next then false else s.finished n
  aborted n := if n = s.next then false else s.aborted n
  next := s.next + 1
  reqNodes := s.reqNodes.insert rid s.next

/-- `create_req`: the session after it and the message the request is aborted with. -/
def createReq (s : Session) (replace : Bool) (rid : Option String) (new : String) :
    Option (Session × Option String) :=
  match replace, rid with
  | true, none =>
    -- a dictionary is iterated from its oldest entry on
    let items := s.reqNodes.entries.reverse.map (·.2)
    (s.clearEach items.length items).map fun s => (s.register none new, none)
  | true, some rid =>
    match s.reqNodes.lookup rid with
    | none => some (s, "Invalid request session id")
    | some n => ((s.abort n).clearChildren n).map fun s => (s.register n new, none)
  | false, none => some (s.register none new, none)
  | false, some rid =>
    match s.reqNodes.lookup rid with
    | none => some (s, "Invalid request session id")
    | some n =>
      if s.finished n then some (s.register n new, none)
      else some (s, "Session request is appending to a request that hasn't finished.")

inductive Op where
  | createReq (replace : Bool) (rid : Option String) (new : String)
  -- the scheduler finishes a request
  | finish (n : ℕ)

def step (s : Session) : Op → Option Session
  | .createReq replace rid new => (s.createReq replace rid new).map (·.1)
  | .finish n => some { s with finished := update s.finished n true }

def Live (s : Session) (n : ℕ) : Prop := s.reqNodes.lookup (s.rid n) = some n

def Below (s : Session) : ℕ → ℕ → Prop := ReflTransGen fun n c => c ∈ s.children n

/-- The proper descendants of a node. -/
def under (s : Session) (n : ℕ) : Set ℕ := {m | TransGen (fun n c => c ∈ s.children n) n m}

structure Tree (s : Session) : Prop where
  entry : ∀ {rid n}, s.reqNodes.lookup rid = some n → s.rid n = rid ∧ n < s.next
  child : ∀ {n}, s.Live n → ∀ c, c ∈ s.children n ↔ s.Live c ∧ s.parent c = some n
  nodup : ∀ {n}, s.Live n → (s.children n).Nodup
  parent : ∀ {c n}, s.Live c → s.parent c = some n → s.Live n ∧ n < c
  kept : ∀ {n}, s.Live n → s.aborted n = false

variable {s s' s₁ : Session} {n m c p : ℕ} {E : Set ℕ}

theorem below_iff : s.Below n m ↔ m = n ∨ m ∈ s.under n := reflTransGen_iff_eq_or_transGen

namespace Tree

theorem child_lt (h : Tree s) (hn : s.Live n) (hc : c ∈ s.children n) : s.Live c ∧ n < c :=
  have ⟨hlive, hparent⟩ := (h.child hn c).mp hc
  ⟨hlive, (h.parent hlive hparent).2⟩

theorem below (h : Tree s) (hn : s.Live n) (hm : s.Below n m) : s.Live m ∧ n ≤ m := by
  induction hm with
  | refl => exact ⟨hn, le_rfl⟩
  | tail _ hc ih =>
    have ⟨hlive, hlt⟩ := h.child_lt ih.1 hc
    exact ⟨hlive, le_trans ih.2 hlt.le⟩

theorem not_below_parent (h : Tree s) (hn : s.Live n) (hc : c ∈ s.children n) : ¬ s.Below c n := by
  intro hcn
  have ⟨hlive, hlt⟩ := h.child_lt hn hc
  have := (h.below hlive hcn).2
  omega

theorem not_under_self (h : Tree s) (hn : s.Live n) : n ∉ s.under n := by
  intro hunder
  obtain ⟨c, hc, hcn⟩ := TransGen.head'_iff.mp hunder
  exact h.not_below_parent hn hc hcn

theorem exists_root (h : Tree s) (hn : s.Live n) :
    ∃ r, s.Live r ∧ s.parent r = none ∧ s.Below r n := by
  induction n using Nat.strong_induction_on with
  | h n ih =>
    cases hp : s.parent n with
    | none => exact ⟨n, hn, hp, .refl⟩
    | some p =>
      have ⟨hlive, hlt⟩ := h.parent hn hp
      have ⟨r, hr, hroot, hbelow⟩ := ih p hlt hlive
      exact ⟨r, hr, hroot, hbelow.tail ((h.child hlive n).mpr ⟨hn, hp⟩)⟩

theorem mem_under (h : Tree s) (hn : s.Live n) (hm : s.Live m) (hp : s.parent m = some p) :
    m ∈ s.under n ↔ s.Below n p := by
  refine TransGen.tail'_iff.trans ⟨?_, fun hb => ⟨p, hb, ?_⟩⟩
  swap
  · exact (h.child (h.parent hm hp).1 m).mpr ⟨hm, hp⟩
  rintro ⟨k, hk, hchild⟩
  have hparent := ((h.child (h.below hn hk).1 m).mp hchild).2
  obtain rfl : p = k := Option.some.inj (hp.symm.trans hparent)
  exact hk

theorem siblings (h : Tree s) (hp : s.Live p) {a b : ℕ} (ha : a ∈ s.children p)
    (hb : b ∈ s.children p) (ham : s.Below a m) (hbm : s.Below b m) : a = b := by
  have ⟨hliveA, hparentA⟩ := (h.child hp a).mp ha
  have ⟨hliveB, hparentB⟩ := (h.child hp b).mp hb
  induction ham with
  | refl =>
    obtain rfl | hunder := below_iff.mp hbm
    · rfl
    · exact absurd ((h.mem_under hliveB hliveA hparentA).mp hunder) (h.not_below_parent hp hb)
  | @tail k m hak hm ih =>
    have ⟨hlive, hparent⟩ := (h.child (h.below hliveA hak).1 m).mp hm
    obtain rfl | hunder := below_iff.mp hbm
    · obtain rfl : p = k := Option.some.inj (hparentB.symm.trans hparent)
      exact absurd hak (h.not_below_parent hp ha)
    · exact ih ((h.mem_under hliveB hlive hparent).mp hunder)

end Tree

/-! ## Clearing -/

/-- The nodes `E` of the session were aborted and left `req_nodes`. -/
structure Removed (s : Session) (E : Set ℕ) (s' : Session) : Prop where
  eq : s' = { s with aborted := s'.aborted, reqNodes := s'.reqNodes }
  aborted : ∀ m, s'.aborted m = true ↔ s.aborted m = true ∨ m ∈ E ∧ s.finished m = false
  lookup : ∀ rid m, s'.reqNodes.lookup rid = some m ↔ s.reqNodes.lookup rid = some m ∧ m ∉ E

theorem Removed.del (h : Tree s) (hr : Removed s E s₁) (hn : s.Live n) (hnE : n ∉ E) :
    ∃ s₂, (s₁.abort n).del (s₁.rid n) = some s₂ ∧ Removed s (insert n E) s₂ := by
  obtain ⟨heq, haborted, hlookup⟩ := hr
  generalize s₁.aborted = a at *
  generalize s₁.reqNodes = d at *
  subst heq
  have hfound : d.lookup (s.rid n) = some n := (hlookup _ n).mpr ⟨hn, hnE⟩
  refine ⟨⟨s.rid, s.parent, s.children, s.finished, if s.finished n then a else update a n true,
    s.next, d.erase (s.rid n)⟩, ?_, rfl, ?_, ?_⟩
  · unfold Session.del abort
    split_ifs <;> simp [hfound]
  · intro m
    have := haborted m
    by_cases hm : m = n <;> cases hf : s.finished n <;> simp_all
  · intro rid m
    by_cases hrid : rid = s.rid n
    · subst hrid
      simp only [AList.lookup_erase, Set.mem_insert_iff, reduceCtorEq, false_iff]
      rintro ⟨hm, hne⟩
      exact hne (.inl (Option.some.inj (hm.symm.trans hn)))
    · have hne : s.reqNodes.lookup rid = some m → m ≠ n := by
        rintro hm rfl
        exact hrid (h.entry hm).1.symm
      simp only [AList.lookup_erase_ne hrid, hlookup, Set.mem_insert_iff]
      tauto

theorem under_eq : s.under n = {m | ∃ c ∈ s.children n, s.Below c m} :=
  Set.ext fun _ => TransGen.head'_iff

/-- By induction on the fuel: the children are cleared one after another, and no node is below two
of them. -/
theorem Tree.clear (h : Tree s) {fuel : ℕ} {l : List ℕ} (hp : s.Live p)
    (hfuel : s.next ≤ p + fuel + 1) (hl : l.Nodup) (hsub : ∀ c ∈ l, c ∈ s.children p)
    (hr : Removed s E s₁) (hE : ∀ c ∈ l, ∀ m, s.Below c m → m ∉ E) :
    ∃ s₂, l.foldlM (fun s c => clear fuel c s) s₁ = some s₂ ∧
      Removed s (E ∪ {m | ∃ c ∈ l, s.Below c m}) s₂ := by
  induction fuel generalizing p l E s₁ with
  | zero =>
    cases l with
    | nil => exact ⟨s₁, rfl, by simpa using hr⟩
    | cons c l =>
      have ⟨hlive, hlt⟩ := h.child_lt hp (hsub c List.mem_cons_self)
      have := (h.entry hlive).2
      omega
  | succ fuel ih =>
    induction l generalizing E s₁ with
    | nil => exact ⟨s₁, rfl, by simpa using hr⟩
    | cons c l ihl =>
      rw [List.nodup_cons] at hl
      rw [List.forall_mem_cons] at hsub hE
      have ⟨hlive, hlt⟩ := h.child_lt hp hsub.1
      obtain ⟨s₂, hs₂, hr₂⟩ := ih hlive (by omega) (h.nodup hlive) (fun d => id) hr
        fun d hd m hm => hE.1 m (hm.head hd)
      rw [← under_eq] at hr₂
      obtain ⟨s₃, hs₃, hr₃⟩ := hr₂.del h hlive fun hc =>
        hc.elim (hE.1 c .refl) (h.not_under_self hlive)
      have hunion : insert c (E ∪ s.under c) = E ∪ {m | s.Below c m} := by
        ext m
        simp only [Set.mem_union, Set.mem_ofPred_eq, Set.mem_insert_iff, below_iff]
        tauto
      rw [hunion] at hr₃
      obtain ⟨s₄, hs₄, hr₄⟩ := ihl hl.2 hsub.2 hr₃ (by
        rintro d hd m hm (hmE | hcm)
        · exact hE.2 d hd m hm hmE
        · obtain rfl := h.siblings hp hsub.1 (hsub.2 d hd) hcm hm
          exact hl.1 hd)
      have hclear : Session.clear (fuel + 1) c s₁ = some s₃ := by
        have hchildren : s₁.children = s.children := by rw [hr.eq]
        rw [Session.clear, hchildren, hs₂]
        exact hs₃
      refine ⟨s₄, by rw [List.foldlM_cons, hclear]; exact hs₄, ?_⟩
      simpa [Set.union_assoc, Set.ofPred_or] using hr₄

theorem Tree.clearChildren (h : Tree s) (hn : s.Live n) : ∃ s₁, Removed s (s.under n) s₁ ∧
    s.clearChildren n = some { s₁ with children := update s₁.children n [] } := by
  have hself : Removed s ∅ s := ⟨rfl, by simp, by simp⟩
  obtain ⟨s₁, hs₁, hr⟩ := h.clear hn (by omega : s.next ≤ n + s.next + 1) (h.nodup hn)
    (fun c => id) hself fun c hc m hm => id
  rw [Set.empty_union, ← under_eq] at hr
  exact ⟨s₁, hr, by rw [Session.clearChildren, hs₁]; rfl⟩

theorem Tree.cleared (h : Tree s) (hn : s.Live n) (hr : Removed s (s.under n) s₁) :
    Tree { s₁ with children := update s₁.children n [] } := by
  obtain ⟨heq, haborted, hlookup⟩ := hr
  generalize s₁.aborted = a at *
  generalize s₁.reqNodes = d at *
  subst heq
  have hlive : ∀ {m}, d.lookup (s.rid m) = some m → s.Live m ∧ m ∉ s.under n := (hlookup _ _).mp
  constructor
  · intro rid m hm
    exact h.entry ((hlookup rid m).mp hm).1
  · intro k hk c
    have := h.child (hlive hk).1 c
    have := h.mem_under (m := c) (p := k) hn
    have := @below_iff s n k
    have := hlookup (s.rid c) c
    have := hlive hk
    simp only [Live] at *
    grind
  · intro k hk
    have := h.nodup (hlive hk).1
    grind
  · intro c k hc hp
    have := (h.mem_under hn (hlive hc).1 hp).trans below_iff
    have := h.parent (hlive hc).1 hp
    have := hlookup (s.rid k) k
    simp only [Live] at *
    grind
  · intro k hk
    have := h.kept (hlive hk).1
    have := haborted k
    have := (hlive hk).2
    grind

theorem Tree.register (h : Tree s) {parent : Option ℕ} {new : String}
    (hnew : s.reqNodes.lookup new = none) (hparent : ∀ p ∈ parent, s.Live p) :
    Tree (s.register parent new) ∧
      ∀ m, (s.register parent new).Live m ↔ s.Live m ∨ m = s.next := by
  have hlt : ∀ {m}, s.Live m → m < s.next := fun hm => (h.entry hm).2
  have hlookup : ∀ rid, (s.register parent new).reqNodes.lookup rid =
      if rid = new then some s.next else s.reqNodes.lookup rid := by
    intro rid
    split_ifs with hrid
    · rw [hrid]
      exact AList.lookup_insert s.reqNodes
    · exact AList.lookup_insert_ne hrid
  have hlive : ∀ m, (s.register parent new).Live m ↔ s.Live m ∨ m = s.next := by
    intro m
    have := @hlt m
    unfold Live at *
    grind [Session.register]
  refine ⟨⟨?_, ?_, ?_, ?_, ?_⟩, hlive⟩
  · intro rid m hm
    have := @h.entry rid m
    grind [Session.register]
  · intro k hk c
    have := h.child (n := k)
    have := h.parent (c := c) (n := k)
    grind [Session.register]
  · intro k hk
    have := h.nodup (n := k)
    have := h.child (n := k)
    grind [Session.register]
  · intro c k hc hp
    have := h.parent (c := c) (n := k)
    grind [Session.register]
  · intro k hk
    have := h.kept (n := k)
    grind [Session.register]

/-- A replacement names a finished request or finds the session empty, and new ids are new. -/
def Meets (s : Session) : Op → Prop
  | .createReq replace rid new => s.reqNodes.lookup new = none ∧
    (replace = true → (rid = none → s.reqNodes = ∅) ∧
      ∀ n ∈ rid.bind s.reqNodes.lookup, s.finished n = true)
  | .finish _ => True

instance : DecidablePred (Meets s)
  | .createReq .. => inferInstanceAs (Decidable (_ ∧ _))
  | .finish _ => .isTrue trivial

/-- The nodes a step has to remove. -/
def removed (s : Session) : Op → Set ℕ
  | .createReq true none _ => Set.univ
  | .createReq true (some rid) _ => {m | ∃ n ∈ s.reqNodes.lookup rid, m ∈ s.under n}
  | _ => ∅

/-- The step removed just these nodes, and left none of them to run on. -/
def Removes (s : Session) (op : Op) (s' : Session) : Prop :=
  ∀ m, s.Live m → (s'.Live m ↔ m ∉ s.removed op) ∧
    (m ∈ s.removed op → s'.finished m = true ∨ s'.aborted m = true)

theorem Tree.replace (h : Tree s) {rid new : String} (hnew : s.reqNodes.lookup new = none)
    (hn : s.reqNodes.lookup rid = some n) (hfinished : s.finished n = true) :
    ∃ s', s.step (.createReq true (some rid) new) = some s' ∧ Tree s' ∧
      Removes s (.createReq true (some rid) new) s' := by
  have hn' : s.Live n := by rw [Live, (h.entry hn).1, hn]
  obtain ⟨s₁, hr, hs₁⟩ := h.clearChildren hn'
  have hcleared : ∀ m, Live { s₁ with children := update s₁.children n [] } m ↔
      s.Live m ∧ m ∉ s.under n := by
    intro m
    have hrid : s₁.rid = s.rid := by rw [hr.eq]
    rw [Live, hrid]
    exact hr.lookup ..
  have hfresh : s₁.reqNodes.lookup new = none := by
    rw [Option.eq_none_iff_forall_ne_some]
    intro m hm
    simp [((hr.lookup new m).mp hm).1] at hnew
  have hparent : ∀ p ∈ some n, Live { s₁ with children := update s₁.children n [] } p := by
    rintro p ⟨⟩
    exact (hcleared n).mpr ⟨hn', h.not_under_self hn'⟩
  obtain ⟨htree, hlive⟩ := (h.cleared hn' hr).register hfresh hparent
  have habort : s.abort n = s := if_pos hfinished
  refine ⟨_, by simp [step, createReq, hn, habort, hs₁], htree, fun m hm => ?_⟩
  have hremoved : m ∈ s.removed (.createReq true (some rid) new) ↔ m ∈ s.under n := by
    simp [removed, hn]
  have hne : m ≠ s₁.next := by
    have hlt := (h.entry hm).2
    rw [hr.eq]
    exact hlt.ne
  rw [hlive, hcleared, hremoved]
  refine ⟨by simp [hm, hne], fun hunder => ?_⟩
  have haborted := hr.aborted m
  have hsame : s₁.finished m = s.finished m := by rw [hr.eq]
  simp only [Session.register, if_neg hne]
  cases hf : s.finished m <;> simp_all

theorem Tree.step (h : Tree s) {op : Op} (hmeets : s.Meets op) :
    ∃ s', s.step op = some s' ∧ Tree s' ∧ Removes s op s' := by
  have hkept : ∀ {s'}, Tree s' → (∀ m, s.Live m → s'.Live m) → s.removed op = ∅ →
      Tree s' ∧ Removes s op s' := by
    intro s' htree hlive hremoved
    refine ⟨htree, fun m hm => ?_⟩
    simp [hremoved, hlive m hm]
  have hsame := hkept h fun _ => id
  cases op with
  | finish n =>
    exact ⟨_, rfl, hkept ⟨h.entry, h.child, h.nodup, h.parent, h.kept⟩ (fun _ => id) rfl⟩
  | createReq replace rid new =>
    obtain ⟨hnew, hreplace⟩ := hmeets
    have hregister : ∀ {parent}, (∀ p ∈ parent, s.Live p) →
        s.removed (.createReq replace rid new) = ∅ → Tree (s.register parent new) ∧
          Removes s (.createReq replace rid new) (s.register parent new) :=
      fun hparent => hkept (h.register hnew hparent).1
        fun m hm => ((h.register hnew hparent).2 m).mpr (.inl hm)
    match replace, rid with
    | true, none =>
      have hempty := (hreplace rfl).1 rfl
      have hdead : ∀ m, ¬ s.Live m := fun m hm => by simp [Live, hempty] at hm
      exact ⟨s.register none new, by simp [Session.step, createReq, clearEach, hempty],
        (h.register hnew (by simp)).1, fun m hm => absurd hm (hdead m)⟩
    | false, none => exact ⟨_, rfl, hregister (by simp) rfl⟩
    | true, some rid =>
      cases hn : s.reqNodes.lookup rid with
      | none =>
        exact ⟨s, by simp [Session.step, createReq, hn], hsame (by simp [removed, hn])⟩
      | some n => exact h.replace hnew hn ((hreplace rfl).2 n hn)
    | false, some rid =>
      cases hn : s.reqNodes.lookup rid with
      | none => exact ⟨s, by simp [Session.step, createReq, hn], hsame rfl⟩
      | some n =>
        have hlive : ∀ p ∈ some n, s.Live p := by
          rintro p ⟨⟩
          rw [Live, (h.entry hn).1, hn]
        cases hf : s.finished n with
        | false => exact ⟨s, by simp [Session.step, createReq, hn, hf], hsame rfl⟩
        | true => exact ⟨_, by simp [Session.step, createReq, hn, hf], hregister hlive rfl⟩

theorem tree_empty : Tree empty := by
  constructor <;> intros <;> contradiction

/-- Along every run whose steps meet the condition. -/
theorem request_tree_consistent {ops : List Op} (hguard : Lib.Guarded step Meets empty ops)
    (hrun : Lib.runFrom step empty ops = some s) :
    (∀ n, s.Live n ↔ ∃ r, s.Live r ∧ s.parent r = none ∧ s.Below r n) ∧
    (∀ n, s.Live n → s.aborted n = false) ∧
    ∀ op, s.Meets op → ∃ s', s.step op = some s' ∧ Removes s op s' := by
  have h : Tree s := Lib.runFrom_invariant (fun s op s' h hmeets hs => by
    obtain ⟨s₁, hs₁, htree, -⟩ := h.step hmeets
    exact Option.some.inj (hs₁.symm.trans hs) ▸ htree) tree_empty hguard hrun
  refine ⟨fun n => ⟨h.exists_root, ?_⟩, fun n => h.kept, fun op hmeets => ?_⟩
  · rintro ⟨r, hr, -, hbelow⟩
    exact (h.below hr hbelow).1
  · obtain ⟨s', hs', -, hremoves⟩ := h.step hmeets
    exact ⟨s', hs', hremoves⟩

theorem request_tree_branch : ∃ ops s, Lib.runFrom step empty ops = some s ∧ s.Live 2 ∧
    s.parent 2 = some 0 ∧ ¬ s.Live 1 ∧ ∀ n, s.Live n → s.aborted n = false :=
  let ops : List Op := [.createReq false none "a", .finish 0, .createReq false (some "a") "b",
    .createReq true (some "a") "c"]
  have hguard : Lib.Guarded step Meets empty ops := by decide
  ⟨ops, _, rfl, rfl, rfl, nofun, (request_tree_consistent hguard rfl).2.1⟩

/-- A replacement without id raises, one of a request that runs aborts what it keeps. -/
theorem replace_breaks_request_tree :
    (∃ s, Lib.runFrom step empty [.createReq false none "a"] = some s ∧
      s.step (.createReq true none "b") = none) ∧
    ∃ s, Lib.runFrom step empty [.createReq false none "a", .createReq true (some "a") "b"] =
      some s ∧ s.Live 0 ∧ s.aborted 0 = true :=
  ⟨⟨_, rfl, rfl⟩, _, rfl, rfl, rfl⟩

end Session

end SparkInfer.Streaming.RequestTree
