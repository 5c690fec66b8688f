import SparkInfer.Unified.LockSpecs

/-!
# What the releases do to the data

A release walks the path of the node it is given.  When the nodes it visits and
does not skip are all locked, it succeeds and takes one from the count of each of
them.
-/

namespace SparkInfer.Unified

open List Data

variable {cfg : CoreConfig} {l : Layer} {ct : ComponentType} {n node : NodeId}
variable {ns above : List NodeId} {skip : Finset NodeId} {uuid : Option Nat}
variable {c c' : Core} {d d' : Data}
variable {ms : List NodeId} {params : DecLockRefParams} {skipSwa : Bool} {cts : List ComponentType}
variable {rel : ComponentType → List NodeId}

def unskipped (skip : Finset NodeId) (ns : List NodeId) : List NodeId :=
  ns.filter fun n => decide (n ∉ skip)

theorem unskipped_cons_of_mem (hn : n ∈ skip) : unskipped skip (n :: ns) = unskipped skip ns :=
  filter_cons_of_neg (by simpa using hn)

theorem unskipped_cons_of_not_mem (hn : n ∉ skip) :
    unskipped skip (n :: ns) = n :: unskipped skip ns :=
  filter_cons_of_pos (by simpa using hn)

theorem mem_unskipped : n ∈ unskipped skip ns ↔ n ∈ ns ∧ n ∉ skip := by
  rw [unskipped, mem_filter, decide_eq_true_iff]

theorem not_mem_unskipped (hn : n ∉ ns) : n ∉ unskipped skip ns :=
  fun hmem => hn (mem_unskipped.mp hmem).1

theorem not_mem_singleton_of_mem (hn : n ∉ ns) (hnode : node ∈ ns) : node ∉ [n] :=
  fun h => hn (mem_singleton.mp h ▸ hnode)

namespace Core

theorem unlockOne_toData (c : Core) (l : Layer) (ct : ComponentType) (n : NodeId) :
    (c.setLockRef l ct n (c.lockRef l ct n - 1)).toData = c.toData.bump l ct [n] (-1) := by
  rw [← setLockRef_eq_bump]
  rfl

/-! ## Full -/

theorem fullRelease_spec (hns : ns.Nodup)
    (h : ∀ n ∈ ns, n ∉ skip → c.value .device .full n ≠ none ∧ 0 < c.lockRef .device .full n) :
    ∃ c', fullRelease skip c ns = .ok c' ∧
      c'.toData = c.toData.bump .device .full (unskipped skip ns) (-1) := by
  induction ns generalizing c with
  | nil => exact ⟨c, rfl, bump_nil.symm⟩
  | cons n ns ih =>
    obtain ⟨hn, hns⟩ := nodup_cons.mp hns
    rw [fullRelease]
    by_cases hskip : n ∈ skip
    · rw [if_pos hskip, unskipped_cons_of_mem hskip]
      exact ih hns fun m hm => h m (mem_cons_of_mem n hm)
    rw [if_neg hskip, unskipped_cons_of_not_mem hskip]
    obtain ⟨hval, hpos⟩ := h n (mem_cons_self ..) hskip
    obtain ⟨v, hv⟩ := Option.ne_none_iff_exists'.mp hval
    rw [hv]
    simp only [if_pos hpos]
    -- the sizes and the leaf sets do not matter to the rest of the walk
    generalize hmoved : (if c.lockRef .device .full n = 1 then (v.length : Int) else 0) = moved
    have hone : ((c.protect .full (-moved)).setLockRef .device .full n
        ((c.protect .full (-moved)).lockRef .device .full n - 1)).toData =
          c.toData.bump .device .full [n] (-1) := unlockOne_toData c .device .full n
    generalize (c.protect .full (-moved)).setLockRef .device .full n
      ((c.protect .full (-moved)).lockRef .device .full n - 1) = c₁ at hone
    have hleaf : (if c₁.lockRef .device .full n = 0 then c₁.updateEvictableLeafSets n
        else c₁).toData = c.toData.bump .device .full [n] (-1) := by
      split_ifs
      · rw [updateEvictableLeafSets_toData, hone]
      · exact hone
    obtain ⟨c', hrun, hdata⟩ := ih hns (by
      intro m hm hms
      rw [hleaf, bump_lockRef_of_not_mem (not_mem_singleton_of_mem hn hm)]
      exact h m (mem_cons_of_mem n hm) hms)
    refine ⟨c', hrun, ?_⟩
    rw [hdata, hleaf, bump_bump_cons (not_mem_unskipped hn)]

/-! ## SWA -/

theorem beforeLastRelease_spec (hv : l = .device → c.value .device ct n ≠ none) :
    ∃ c₁, c.beforeLastRelease l ct n = .ok c₁ ∧ c₁.toData = c.toData := by
  unfold beforeLastRelease
  by_cases hone : c.lockRef l ct n = 1
  · rw [if_pos hone]
    cases l with
    | host =>
      split_ifs
      · exact ⟨_, rfl, attachLru_toData ..⟩
      · exact ⟨_, rfl, rfl⟩
    | device =>
      obtain ⟨v, hv⟩ := Option.ne_none_iff_exists'.mp (hv rfl)
      simp only [hv]
      exact ⟨_, rfl, rfl⟩
  · rw [if_neg hone]
    exact ⟨c, rfl, rfl⟩

def Locked (d : Data) (l : Layer) (ct : ComponentType) (n : NodeId) : Prop :=
  0 < d.lockRef l ct n ∧ (l = .device → d.value .device ct n ≠ none)

theorem Locked.bump {delta : Int} (h : Locked d l ct n) (hn : n ∉ ms) :
    Locked (d.bump l ct ms delta) l ct n := by
  refine ⟨?_, h.2⟩
  rw [bump_lockRef_of_not_mem hn]
  exact h.1

theorem swaRelease_cons (uuid : Option Nat) (ns : List NodeId) (hn : n ∉ skip)
    (h : Locked c.toData l .swa n) :
    ∃ c₁ : Core, c₁.toData = c.toData.bump l .swa [n] (-1) ∧ swaRelease l uuid skip c (n :: ns) =
        if uuid ≠ none ∧ c.uuid l n = uuid then .ok c₁ else swaRelease l uuid skip c₁ ns := by
  obtain ⟨c₀, hbefore, hdata⟩ := beforeLastRelease_spec h.2
  refine ⟨c₀.setLockRef l .swa n (c₀.lockRef l .swa n - 1), ?_, ?_⟩
  · rw [unlockOne_toData, hdata]
  · rw [swaRelease, if_neg hn, if_neg (by have := h.1; omega), hbefore, ← hdata]
    rfl

/-- Where a walk that looks for the mark `uuid` stops: it visits the first list
of the two. -/
inductive WindowStop (mark : NodeId → Option Nat) (skip : Finset NodeId) :
    Option Nat → List NodeId → List NodeId → Prop
  | root (ns : List NodeId) : WindowStop mark skip none ns []
  | mark {v : Nat} {last : NodeId} (first above : List NodeId) (hskip : last ∉ skip)
      (hlast : mark last = some v) (hfirst : ∀ n ∈ first, mark n ≠ some v) :
      WindowStop mark skip (some v) (first ++ [last]) above

namespace WindowStop

variable {mark : NodeId → Option Nat}

theorem nil (h : WindowStop mark skip uuid [] above) : above = [] := by
  generalize hns : [] = ns at h
  cases h with
  | root => exact hns
  | mark => simp at hns

theorem cons (h : WindowStop mark skip uuid (n :: ns) above) :
    (n ∉ skip ∧ (uuid ≠ none ∧ mark n = uuid) ∧ ns = []) ∨
      ¬ (uuid ≠ none ∧ mark n = uuid) ∧ WindowStop mark skip uuid ns above := by
  generalize hns : n :: ns = ms at h
  cases h with
  | root => exact .inr ⟨by simp, .root ns⟩
  | @mark v last first _ hskip hlast hfirst =>
    cases first with
    | nil =>
      obtain ⟨rfl, rfl⟩ := cons.inj hns
      exact .inl ⟨hskip, ⟨by simp, hlast⟩, rfl⟩
    | cons m first =>
      obtain ⟨rfl, rfl⟩ := cons.inj hns
      rw [forall_mem_cons] at hfirst
      exact .inr ⟨fun h => hfirst.1 h.2, .mark first above hskip hlast hfirst.2⟩

end WindowStop

theorem swaRelease_spec (hnd : ns.Nodup) (hstop : WindowStop (c.uuid l) skip uuid ns above)
    (h : ∀ n ∈ ns, n ∉ skip → Locked c.toData l .swa n) :
    ∃ c', swaRelease l uuid skip c (ns ++ above) = .ok c' ∧
      c'.toData = c.toData.bump l .swa (unskipped skip ns) (-1) := by
  induction ns generalizing c with
  | nil =>
    rw [hstop.nil]
    exact ⟨c, rfl, bump_nil.symm⟩
  | cons n ns ih =>
    obtain ⟨hn, hnd⟩ := nodup_cons.mp hnd
    rw [forall_mem_cons] at h
    rw [cons_append]
    by_cases hskip : n ∈ skip
    · obtain ⟨hno, -⟩ | ⟨-, hstop⟩ := hstop.cons
      · exact absurd hskip hno
      rw [swaRelease, if_pos hskip, unskipped_cons_of_mem hskip]
      exact ih hnd hstop h.2
    obtain ⟨c₁, hone, hrun⟩ := swaRelease_cons uuid (ns ++ above) hskip (h.1 hskip)
    rw [hrun, unskipped_cons_of_not_mem hskip]
    obtain ⟨-, hmark, rfl⟩ | ⟨hgo, hstop⟩ := hstop.cons
    · exact ⟨c₁, if_pos hmark, hone⟩
    have huuid : c₁.uuid = c.uuid := by
      rw [hone]
      rfl
    obtain ⟨c₂, hrest, hdata⟩ := ih hnd (huuid ▸ hstop) (by
      intro m hm hms
      rw [hone]
      exact (h.2 m hm hms).bump (not_mem_singleton_of_mem hn hm))
    refine ⟨c₂, (if_neg hgo).trans hrest, ?_⟩
    rw [hdata, hone, bump_bump_cons (not_mem_unskipped hn)]

/-! ## Mamba -/

theorem mambaRelease_spec
    (h : l = .device → node ≠ c.tree.rootNode → node ∉ skip → Locked c.toData l .mamba node) :
    ∃ c', c.mambaRelease l node skip = .ok c' ∧ c'.toData = c.toData.bump l .mamba
      (if node = c.tree.rootNode ∨ node ∈ skip then [] else [node]) (-1) := by
  unfold mambaRelease
  by_cases hroot : node = c.tree.rootNode
  · rw [if_pos hroot, if_pos (.inl hroot), bump_nil]
    exact ⟨c, rfl, rfl⟩
  rw [if_neg hroot]
  by_cases hskip : node ∈ skip
  · rw [if_pos hskip, if_pos (.inr hskip), bump_nil]
    exact ⟨c, rfl, rfl⟩
  rw [if_neg hskip, if_neg (not_or.mpr ⟨hroot, hskip⟩)]
  cases l with
  | host =>
    simp only
    split_ifs
    · exact ⟨_, rfl, by rw [attachLru_toData, unlockOne_toData]⟩
    · exact ⟨_, rfl, unlockOne_toData ..⟩
  | device =>
    have hlocked := h rfl hroot hskip
    obtain ⟨c₀, hbefore, hdata⟩ := beforeLastRelease_spec hlocked.2
    simp only [if_pos hlocked.1, hbefore]
    exact ⟨_, rfl, by rw [unlockOne_toData, hdata]⟩

/-! ## All components -/

/-- The release of `ct` takes one from the counts of `ns`, whatever the other
components' counts are. -/
def Releases (cfg : CoreConfig) (l : Layer) (node : NodeId) (params : DecLockRefParams)
    (d : Data) (ct : ComponentType) (ns : List NodeId) : Prop :=
  ∀ c : Core, c.tree = d.tree → c.value = d.value → c.uuid = d.uuid →
    (∀ n, c.lockRef l ct n = d.lockRef l ct n) →
      ∃ c', c.releaseComponentLock cfg l ct node params = .ok c' ∧
        c'.toData = c.toData.bump l ct ns (-1)

section Releases

theorem Locked.congr (h : Locked d l ct n) (hv : d'.value = d.value)
    (hl : ∀ n, d'.lockRef l ct n = d.lockRef l ct n) : Locked d' l ct n := by
  refine ⟨?_, fun hd => ?_⟩
  · rw [hl]
    exact h.1
  · rw [hv]
    exact h.2 hd

theorem releases_full (hnd : (d.tree.climb node).Nodup)
    (h : ∀ n ∈ d.tree.climb node, n ∉ params.skipLockNodeIds .full → Locked d .device .full n) :
    Releases cfg .device node params d .full
      (unskipped (params.skipLockNodeIds .full) (d.tree.climb node)) := by
  intro c ht hv hu hl
  rw [releaseComponentLock, ht]
  refine fullRelease_spec hnd fun n hn hs => ?_
  have hlocked := (h n hn hs).congr hv hl
  exact ⟨hlocked.2 rfl, hlocked.1⟩

theorem releases_swa (hclimb : d.tree.climb node = ns ++ above) (hnd : ns.Nodup)
    (hstop : WindowStop (d.uuid l) (params.skipLockNodeIds .swa) (params.swaUuid l) ns above)
    (h : ∀ n ∈ ns, n ∉ params.skipLockNodeIds .swa → Locked d l .swa n) :
    Releases cfg l node params d .swa (unskipped (params.skipLockNodeIds .swa) ns) := by
  intro c ht hv hu hl
  rw [releaseComponentLock, ht, hclimb]
  rw [← hu] at hstop
  exact swaRelease_spec hnd hstop fun n hn hs => (h n hn hs).congr hv hl

theorem releases_mamba
    (h : l = .device → node ≠ d.tree.rootNode → node ∉ params.skipLockNodeIds .mamba →
      Locked d l .mamba node) : Releases cfg l node params d .mamba
      (if node = d.tree.rootNode ∨ node ∈ params.skipLockNodeIds .mamba then [] else [node]) := by
  intro c ht hv hu hl
  rw [← ht]
  refine mambaRelease_spec fun hd hr hs => ?_
  rw [ht] at hr
  exact (h hd hr hs).congr hv hl

end Releases

/-- One less on the nodes `rel ct` of every component in `cts`, nothing else. -/
structure Released (l : Layer) (cts : List ComponentType) (rel : ComponentType → List NodeId)
    (d d' : Data) : Prop where
  tree : d'.tree = d.tree
  value : d'.value = d.value
  uuid : d'.uuid = d.uuid
  uuidCounter : d'.uuidCounter = d.uuidCounter
  lockRef : ∀ l' ct n, d'.lockRef l' ct n = d.lockRef l' ct n -
    if l' = l ∧ ct ∈ cts ∧ n ∈ rel ct then 1 else 0

def visited (skipSwa : Bool) (cts : List ComponentType) : List ComponentType :=
  cts.filter fun ct => !decide (skipSwa = true ∧ ct = .swa)

theorem releaseAll_spec (hcts : cts.Nodup)
    (h : ∀ ct ∈ visited skipSwa cts, Releases cfg l node params c.toData ct (rel ct)) :
    ∃ c', releaseAll cfg l node params skipSwa cts c = .ok c' ∧
      Released l (visited skipSwa cts) rel c.toData c'.toData := by
  induction cts generalizing c with
  | nil => exact ⟨c, rfl, rfl, rfl, rfl, rfl, by simp [visited]⟩
  | cons ct cts ih =>
    obtain ⟨hct, hcts⟩ := nodup_cons.mp hcts
    rw [releaseAll]
    by_cases hskip : skipSwa = true ∧ ct = .swa
    · have hvisited : visited skipSwa (ct :: cts) = visited skipSwa cts :=
        filter_cons_of_neg (by simp [hskip])
      rw [if_pos hskip]
      rw [hvisited] at h ⊢
      exact ih hcts h
    have hvisited : visited skipSwa (ct :: cts) = ct :: visited skipSwa cts :=
      filter_cons_of_pos (by rw [decide_eq_false hskip]; rfl)
    have hnot : ct ∉ visited skipSwa cts := fun hmem => hct (mem_filter.mp hmem).1
    rw [if_neg hskip]
    rw [hvisited] at h ⊢
    obtain ⟨c₁, hrun, hdata⟩ := h ct (mem_cons_self ..) c rfl rfl rfl fun n => rfl
    obtain ⟨c', hrest, hrel⟩ := ih hcts (by
      intro x hx c₂ ht hv hu hl
      have hne : x ≠ ct := fun he => hnot (he ▸ hx)
      rw [hdata] at ht hv hu hl
      refine h x (mem_cons_of_mem _ hx) c₂ ht hv hu fun n => ?_
      rw [hl n]
      simp [bump, hne])
    refine ⟨c', by rw [hrun]; exact hrest, ?_⟩
    constructor
    · rw [hrel.tree, hdata]
      rfl
    · rw [hrel.value, hdata]
      rfl
    · rw [hrel.uuid, hdata]
      rfl
    · rw [hrel.uuidCounter, hdata]
      rfl
    · intro l' x n
      rw [hrel.lockRef, hdata]
      by_cases hx : x = ct
      · subst hx
        simp only [bump, hnot, mem_cons_self, false_and, and_false, if_false]
        split_ifs <;> omega
      · simp [bump, hx]

theorem decLockRef_spec (hnode : node ∈ c.tree.arena)
    (h : ∀ ct ∈ visited skipSwa cfg.components, Releases cfg .device node params c.toData ct (rel ct)) :
    ∃ c', c.decLockRef cfg node params skipSwa = .ok c' ∧
      Released .device (visited skipSwa cfg.components) rel c.toData c'.toData := by
  obtain ⟨c₁, hrun, hrel⟩ := releaseAll_spec cfg.components_nodup h
  refine ⟨c₁.updateEvictableLeafSets node, ?_, hrel⟩
  rw [decLockRef, if_neg (not_not.mpr hnode), hrun]
  rfl

/-! ## The early release of a window -/

/-- One less on the nodes `ns`; some that are no longer locked lose their value. -/
structure WindowFreed (ns : List NodeId) (d d' : Data) : Prop where
  tree : d'.tree = d.tree
  uuid : d'.uuid = d.uuid
  uuidCounter : d'.uuidCounter = d.uuidCounter
  lockRef : d'.lockRef = (d.bump .device .swa ns (-1)).lockRef
  value : ∀ l ct n, d'.value l ct n = d.value l ct n ∨
    (l = .device ∧ ct = .swa ∧ n ∈ ns ∧ d'.lockRef .device .swa n = 0)

namespace WindowFreed

theorem refl (d : Data) : WindowFreed [] d d where
  tree := rfl
  uuid := rfl
  uuidCounter := rfl
  lockRef := by rw [bump_nil]
  value := fun _ _ _ => .inl rfl

theorem trans {d₁ d₂ : Data} (h₁ : WindowFreed ms d d₁) (h₂ : WindowFreed ns d₁ d₂)
    (hdisj : ∀ n ∈ ms, n ∉ ns) : WindowFreed (ms ++ ns) d d₂ where
  tree := by rw [h₂.tree, h₁.tree]
  uuid := by rw [h₂.uuid, h₁.uuid]
  uuidCounter := by rw [h₂.uuidCounter, h₁.uuidCounter]
  lockRef := by
    rw [← bump_bump hdisj, h₂.lockRef, bump, bump, h₁.lockRef]
  value := by
    intro l ct n
    cases h₂.value l ct n with
    | inr h =>
      exact .inr ⟨h.1, h.2.1, mem_append_right _ h.2.2.1, h.2.2.2⟩
    | inl h =>
      rw [h]
      cases h₁.value l ct n with
      | inl h' => exact .inl h'
      | inr h' =>
        refine .inr ⟨h'.1, h'.2.1, mem_append_left _ h'.2.2.1, ?_⟩
        rw [h₂.lockRef, bump_lockRef_of_not_mem (hdisj n h'.2.2.1)]
        exact h'.2.2.2

theorem locked_of_not_mem (h : WindowFreed ns d d') (hn : n ∉ ns)
    (hlocked : Locked d .device .swa n) : Locked d' .device .swa n := by
  refine ⟨?_, fun _ => ?_⟩
  · rw [h.lockRef, bump_lockRef_of_not_mem hn]
    exact hlocked.1
  cases h.value .device .swa n with
  | inl hv =>
    rw [hv]
    exact hlocked.2 rfl
  | inr hv => exact absurd hv.2.2.1 hn

theorem idle_of_not_mem (h : WindowFreed ns d d') (hn : n ∉ ns)
    (hidle : d.value .device .swa n = none ∨ d.lockRef .device .swa n = 0) :
    d'.value .device .swa n = none ∨ d'.lockRef .device .swa n = 0 := by
  rw [h.lockRef, bump_lockRef_of_not_mem hn]
  cases h.value .device .swa n with
  | inl hv =>
    rwa [hv]
  | inr hv => exact absurd hv.2.2.1 hn

end WindowFreed

theorem evictAuxDevice_toData :
    (c.evictAuxDevice ct n).toData = c.toData.setValue .device ct n none := by
  have hsame : ∀ c₀ : Core, ((if c₀.value .host ct n ≠ none then c₀.attachLru .host ct n
      else c₀).detachLru .device ct n).toData = c₀.toData := by
    intro c₀
    split_ifs
    · rw [detachLru_toData, attachLru_toData]
    · rfl
  unfold evictAuxDevice
  rw [hsame]
  cases hv : c.value .device ct n with
  | some v => rfl
  | none =>
    have hvalue : (c.toData.setValue .device ct n none).value = c.value := by
      funext l' ct' n'
      simp only [Data.setValue]
      split_ifs with h
      · rw [h.1, h.2.1, h.2.2, hv]
      · rfl
    simp only [Data.setValue] at hvalue ⊢
    rw [hvalue]

theorem releaseWindowLock_idle (h : c.value .device .swa n = none ∨ c.lockRef .device .swa n = 0) :
    releaseWindowLock uuid c (n :: ns) =
      if uuid ≠ none ∧ c.uuid .device n = uuid then c else releaseWindowLock uuid c ns := by
  rw [releaseWindowLock]
  simp only [if_pos h, decide_eq_true_iff]

theorem releaseWindowLock_cons (uuid : Option Nat) (ns : List NodeId)
    (h : Locked c.toData .device .swa n) :
    ∃ c₁ : Core, WindowFreed [n] c.toData c₁.toData ∧ releaseWindowLock uuid c (n :: ns) =
        if uuid ≠ none ∧ c.uuid .device n = uuid then c₁ else releaseWindowLock uuid c₁ ns := by
  have hbusy : ¬ (c.value .device .swa n = none ∨ c.lockRef .device .swa n = 0) := by
    rintro (hv | hz)
    · exact h.2 rfl hv
    · have := h.1
      omega
  rw [releaseWindowLock]
  simp only [if_neg hbusy, decide_eq_true_iff]
  refine ⟨_, ?_, rfl⟩
  have hone := unlockOne_toData c .device .swa n
  generalize c.setLockRef .device .swa n (c.lockRef .device .swa n - 1) = c₁ at hone
  have hstay : WindowFreed [n] c.toData c₁.toData := by
    rw [hone]
    exact ⟨rfl, rfl, rfl, rfl, fun _ _ _ => .inl rfl⟩
  split_ifs with hzero hleaf
  · rw [evictAuxDevice_toData, protect_toData]
    refine { hstay with value := fun l' ct' n' => ?_ }
    by_cases hx : l' = .device ∧ ct' = .swa ∧ n' = n
    · right
      obtain ⟨rfl, rfl, rfl⟩ := hx
      exact ⟨rfl, rfl, mem_singleton_self _, hzero⟩
    left
    simp only [Data.setValue, if_neg hx]
    rw [hone]
    rfl
  · exact hstay
  · exact hstay

theorem releaseWindowLock_spec (hnd : ns.Nodup)
    (hstop : WindowStop (c.uuid .device) skip uuid ns above)
    (h : ∀ n ∈ ns, (n ∉ skip → Locked c.toData .device .swa n) ∧
      (n ∈ skip → c.value .device .swa n = none ∨ c.lockRef .device .swa n = 0)) :
    WindowFreed (unskipped skip ns) c.toData (releaseWindowLock uuid c (ns ++ above)).toData := by
  induction ns generalizing c with
  | nil =>
    rw [hstop.nil]
    exact .refl _
  | cons n ns ih =>
    obtain ⟨hn, hnd⟩ := nodup_cons.mp hnd
    obtain ⟨⟨hlocked, hidle⟩, h⟩ := forall_mem_cons.mp h
    rw [cons_append]
    by_cases hskip : n ∈ skip
    · obtain ⟨hno, -⟩ | ⟨hgo, hstop⟩ := hstop.cons
      · exact absurd hskip hno
      rw [releaseWindowLock_idle (hidle hskip), if_neg hgo, unskipped_cons_of_mem hskip]
      exact ih hnd hstop h
    obtain ⟨c₁, hfreed, hrun⟩ := releaseWindowLock_cons uuid (ns ++ above) (hlocked hskip)
    rw [hrun, unskipped_cons_of_not_mem hskip]
    obtain ⟨-, hmark, rfl⟩ | ⟨hgo, hstop⟩ := hstop.cons
    · rw [if_pos hmark]
      exact hfreed
    have huuid : c₁.uuid = c.uuid := hfreed.uuid
    rw [if_neg hgo]
    refine hfreed.trans (ih hnd (huuid ▸ hstop) fun m hm => ?_) fun m hm => ?_
    · have hne := not_mem_singleton_of_mem hn hm
      exact ⟨fun hs => hfreed.locked_of_not_mem hne ((h m hm).1 hs),
        fun hs => hfreed.idle_of_not_mem hne ((h m hm).2 hs)⟩
    · rw [mem_singleton.mp hm]
      exact not_mem_unskipped hn

theorem releaseBelowSwa_idle
    (h : .mamba ∈ cts → node = c.tree.rootNode ∨ node ∈ params.skipLockNodeIds .mamba ∨ c.lockRef .device .mamba node = 0) :
    releaseBelowSwa cfg node params cts c = .ok c := by
  induction cts with
  | nil => rfl
  | cons ct cts ih =>
    have hrest := ih fun hmem => h (mem_cons_of_mem _ hmem)
    rw [releaseBelowSwa]
    cases ct with
    | full | swa => exact hrest
    | mamba =>
      have hskip : c.mambaRelease .device node (params.skipLockNodeIds .mamba) = .ok c := by
        unfold mambaRelease
        rcases h (mem_cons_self ..) with hroot | hskip | hzero
        · rw [if_pos hroot]
        · rw [if_pos hskip, ite_self]
        · simp only [hzero, lt_irrefl, if_false, ite_self]
      rwa [releaseComponentLock, hskip]

end Core

end SparkInfer.Unified
