import SparkInfer.Radix.PrefixMap

/-!
# Namespaces do not see each other

A namespace is a pair of `extra_key` and `cache_salt`.  What the calls of one
namespace are answered depends on the calls of that namespace alone: the two
runs, with and without the other calls, keep the same map in that namespace.
-/

namespace SparkInfer.Radix

open Lib Alloc List

variable {H B : Type} [DecidableEq B] {cfg : Config} {hf : HashFns H B}

inductive Call
  | insert (key : RadixKey) (value : Option (List Int)) (priority : Int) (chunked : Bool)
  | matchPrefix (key : RadixKey)

inductive Answer
  | inserted (prefixLen : Nat)
  | matched (deviceIndices : List Int)

namespace Call

def ns : Call → Namespace
  | insert key _ _ _ => key.ns
  | matchPrefix key => key.ns

def Fits (cfg : Config) : Call → Prop
  | insert key value _ _ => ValueFits cfg key value
  | matchPrefix _ => True

def op : Call → Op
  | insert key value priority chunked => .insert key value priority chunked
  | matchPrefix key => .matchPrefix key

def run (cfg : Config) (hf : HashFns H B) (c : RadixCache H B) :
    Call → Except PyError (RadixCache H B × Answer)
  | insert key value priority chunked => do
    let (c, r) ← c.insert cfg hf key value priority chunked
    return (c, .inserted r.prefixLen)
  | matchPrefix key => do
    let (c, r) ← c.matchPrefix cfg key
    return (c, .matched r.deviceIndices)

end Call

/-- The answers to a sequence of calls, each under the namespace of its key. -/
def answers (cfg : Config) (hf : HashFns H B) :
    RadixCache H B → List Call → Except PyError (List (Namespace × Answer))
  | _, [] => .ok []
  | c, call :: calls => do
    let (c, answer) ← call.run cfg hf c
    let rest ← answers cfg hf c calls
    return (call.ns, answer) :: rest

/-! ## One call -/

def Sound (cfg : Config) (hf : HashFns H B) (c : RadixCache H B) : Prop :=
  ∃ nodes, SysInv cfg hf ⟨c, [], []⟩ nodes

def SameMap (cfg : Config) (ns : Namespace) (c c' : RadixCache H B) : Prop :=
  ∀ K V, Maps cfg.pageSize c.tree.toSkeleton ns K V ↔ Maps cfg.pageSize c'.tree.toSkeleton ns K V

/-- What a call does, in terms of the map alone. -/
inductive Effect (cfg : Config) (c c' : RadixCache H B) : Call → Answer → Prop
  | matched {key : RadixKey} {V : List Int}
      (hlong : LongestMatch cfg.pageSize c.tree.toSkeleton (alignedKey cfg key) V)
      (hmaps : ∀ ns, SameMap cfg ns c' c) : Effect cfg c c' (.matchPrefix key) (.matched V)
  | ignored {key : RadixKey} {value : Option (List Int)} {priority : Int} {chunked : Bool}
      (hdis : cfg.disable = true) (hmaps : ∀ ns, SameMap cfg ns c' c) :
      Effect cfg c c' (.insert key value priority chunked) (.inserted 0)
  | inserted {key : RadixKey} {value : Option (List Int)} {priority : Int} {chunked : Bool}
      {V₀ : List Int} (hen : cfg.disable = false)
      (hlong : LongestMatch cfg.pageSize c.tree.toSkeleton (alignedKey cfg key) V₀)
      (hmaps : ∀ ns K V, Maps cfg.pageSize c'.tree.toSkeleton ns K V ↔
        Maps cfg.pageSize c.tree.toSkeleton ns K V ∨
          (ns = key.ns ∧ ∃ d, cfg.pageSize ∣ d ∧ V₀.length < d ∧ d ≤ (alignedKey cfg key).len ∧
            K = (alignedKey cfg key).units.take d ∧
            V = (V₀ ++ (insertValue cfg key value).drop V₀.length).take d)) :
      Effect cfg c c' (.insert key value priority chunked) (.inserted V₀.length)

section Run

variable {c c' d d' : RadixCache H B} {call : Call} {answer answer' : Answer} {ns : Namespace}

theorem Sound.step {op : Op} (hc : Sound cfg hf c)
    (hstep : Sys.step cfg hf ⟨c, [], []⟩ op = .ok ⟨c', [], []⟩)
    (legal : Sys.Legal cfg ⟨c, [], []⟩ op) : Sound cfg hf c' := by
  obtain ⟨nodes, h⟩ := hc
  exact h.step legal hstep

/-- A call succeeds, so no walk meets an incompatible key. -/
theorem Sound.run (hc : Sound cfg hf c) (hfit : call.Fits cfg) :
    ∃ c' answer, call.run cfg hf c = .ok (c', answer) ∧ Sound cfg hf c' ∧
      Effect cfg c c' call answer := by
  obtain ⟨nodes, h⟩ := id hc
  cases call with
  | matchPrefix key =>
    obtain ⟨c', r, hrun, hmaps, hlong, -⟩ := h.matchRefines key
    refine ⟨c', .matched r.deviceIndices, ?_, ?_, .matched hlong hmaps⟩
    · simp [Call.run, hrun]
    · have hstep : Sys.step cfg hf ⟨c, [], []⟩ (.matchPrefix key) = .ok ⟨c', [], []⟩ := by
        simp [Sys.step, hrun]
      exact hc.step hstep trivial
  | insert key value priority chunked =>
    cases hdis : cfg.disable with
    | true =>
      refine ⟨c, .inserted 0, ?_, hc, .ignored hdis fun _ _ _ => Iff.rfl⟩
      simp [Call.run, RadixCache.insert, hdis]
    | false =>
      obtain ⟨c', r, cm, m, hrun, hmatch, hlen, hmaps⟩ :=
        h.insertRefines hdis key value priority chunked hfit
      obtain ⟨cm', m', hmatch', -, hlong, -⟩ := h.matchRefines key
      rw [hmatch] at hmatch'
      cases hmatch'
      refine ⟨c', .inserted m.deviceIndices.length, ?_, ?_, ?_⟩
      · simp [Call.run, hrun, hlen]
      · have hstep : Sys.step cfg hf ⟨c, [], []⟩ (.insert key value priority chunked) =
            .ok ⟨c', [], []⟩ := by
          simp [Sys.step, hrun]
        exact hc.step hstep hfit
      · rw [hlen] at hmaps
        exact .inserted hdis hlong hmaps

omit [DecidableEq B] in
theorem Effect.other (he : Effect cfg c c' call answer) (hns : call.ns ≠ ns) :
    SameMap cfg ns c' c := by
  cases he with
  | matched _ hmaps | ignored _ hmaps => exact hmaps ns
  | inserted _ _ hmaps =>
    intro K V
    rw [hmaps ns K V]
    exact ⟨fun h => h.resolve_right fun hnew => hns hnew.1.symm, .inl⟩

omit [DecidableEq B] in
theorem LongestMatch.same {key : RadixKey} {V V' : List Int} {nodes : Finset NodeId}
    (h : Shape cfg.pageSize c.tree.toSkeleton nodes) (hsame : SameMap cfg key.ns c d)
    (hV : LongestMatch cfg.pageSize c.tree.toSkeleton (alignedKey cfg key) V)
    (hV' : LongestMatch cfg.pageSize d.tree.toSkeleton (alignedKey cfg key) V') : V = V' := by
  refine hV.unique h (hV'.congr ?_)
  rwa [ns_alignedKey]

omit [DecidableEq B] in
theorem Effect.agree (hc : Sound cfg hf c) (hsame : SameMap cfg call.ns c d)
    (he : Effect cfg c c' call answer) (he' : Effect cfg d d' call answer') :
    answer = answer' ∧ SameMap cfg call.ns c' d' := by
  obtain ⟨nodes, h⟩ := hc
  have hshape := h.inv.shape
  cases he with
  | matched hlong hmaps =>
    cases he' with
    | matched hlong' hmaps' =>
      refine ⟨by rw [hlong.same hshape hsame hlong'], fun K V => ?_⟩
      rw [hmaps _ K V, hsame K V, hmaps' _ K V]
  | ignored hdis hmaps =>
    cases he' with
    | ignored _ hmaps' =>
      refine ⟨rfl, fun K V => ?_⟩
      rw [hmaps _ K V, hsame K V, hmaps' _ K V]
    | inserted hen _ _ => simp [hdis] at hen
  | inserted hen hlong hmaps =>
    cases he' with
    | ignored hdis _ => simp [hdis] at hen
    | inserted _ hlong' hmaps' =>
      have hV := hlong.same hshape hsame hlong'
      subst hV
      refine ⟨rfl, fun K V => ?_⟩
      rw [hmaps _ K V, hmaps' _ K V, hsame K V]

end Run

/-! ## Whole runs -/

theorem answers_agree (ns : Namespace) (calls : List Call) :
    ∀ {c d : RadixCache H B}, Sound cfg hf c → Sound cfg hf d → SameMap cfg ns c d →
      (∀ call ∈ calls, call.Fits cfg) → ∃ out, answers cfg hf c calls = .ok out ∧
        answers cfg hf d (calls.filter (·.ns = ns)) = .ok (out.filter (·.1 = ns)) := by
  induction calls with
  | nil => exact fun _ _ _ _ => ⟨[], rfl, rfl⟩
  | cons call calls ih =>
    intro c d hc hd hsame hfits
    have hfits' : ∀ x ∈ calls, x.Fits cfg := (forall_mem_cons.mp hfits).2
    obtain ⟨c', answer, hrun, hc', he⟩ := hc.run (hfits call mem_cons_self)
    by_cases hns : call.ns = ns
    · obtain ⟨d', answer', hrun', hd', he'⟩ := hd.run (hfits call mem_cons_self)
      subst hns
      obtain ⟨rfl, hsame'⟩ := he.agree hc hsame he'
      obtain ⟨out, hout, hout'⟩ := ih hc' hd' hsame' hfits'
      refine ⟨(call.ns, answer) :: out, ?_, ?_⟩
      · simp [answers, hrun, hout]
      · simp only [filter_cons, decide_true, if_true, answers, hrun', hout', ok_bind, pure_ok]
    · have hsame' : SameMap cfg ns c' d := fun K V => (he.other hns K V).trans (hsame K V)
      obtain ⟨out, hout, hout'⟩ := ih hc' hd hsame' hfits'
      refine ⟨(call.ns, answer) :: out, ?_, ?_⟩
      · simp [answers, hrun, hout]
      · simpa [hns] using hout'

theorem childKey_ns {a b : RadixKey} {pageSize : Nat} (hps : 0 < pageSize)
    (ha : pageSize ≤ a.len) (hb : pageSize ≤ b.len)
    (h : a.childKey pageSize = b.childKey pageSize) : a.ns = b.ns := by
  rw [RadixKey.childKey_eq_iff hps ha hb] at h
  exact (RadixKey.compatible_of_take_eq hps ha hb h).1

/-- The answers given to one namespace are those it gets when the calls of all
other namespaces are left out of the run, and no call fails. -/
theorem namespace_isolation (counter counter' : Nat) (allocator allocator' : Paged)
    (ns : Namespace) (calls : List Call) (hfits : ∀ call ∈ calls, call.Fits cfg) :
    (∃ out, answers cfg hf (.init cfg counter allocator) calls = .ok out ∧
      answers cfg hf (.init cfg counter' allocator') (calls.filter (·.ns = ns)) =
        .ok (out.filter (·.1 = ns))) ∧
    ∀ a b : RadixKey, cfg.pageSize ≤ a.len → cfg.pageSize ≤ b.len →
      a.childKey cfg.pageSize = b.childKey cfg.pageSize → a.ns = b.ns := by
  have hinit : ∀ counter allocator, Sound cfg hf (.init cfg counter allocator) :=
    fun counter allocator => ⟨_, Sys.init_inv counter allocator⟩
  refine ⟨answers_agree ns calls (hinit _ _) (hinit _ _) ?_ hfits,
    fun a b ha hb h => childKey_ns cfg.pageSize_pos ha hb h⟩
  -- both runs start from the empty map
  intro K V
  have hempty : ∀ counter allocator, Maps cfg.pageSize
      (RadixCache.init (H := H) (B := B) cfg counter allocator).tree.toSkeleton ns K V ↔
        K = [] ∧ V = [] := by
    intro counter allocator
    have h : SysInv cfg hf _ _ := Sys.init_inv counter allocator
    exact h.inv.shape.maps_root rfl
  rw [hempty counter allocator, hempty counter' allocator']

/-- The calls of two tenants on one prompt. -/
def Call.twoTenants : List Call :=
  [.insert (.new [1, 2] none false none (some "a")) (some [11, 12]) 0 false,
    .matchPrefix (.new [1, 2] none false none (some "b")),
    .matchPrefix (.new [1, 2] none false none (some "a"))]

theorem namespace_isolation_two_tenants :
    ∃ out, answers .small .unit (.init .small 0 (.new 8 1 false)) Call.twoTenants = .ok out ∧
      answers .small .unit (.init .small 0 (.new 8 1 false))
        (Call.twoTenants.filter (·.ns = (none, some "b"))) =
        .ok (out.filter (·.1 = (none, some "b"))) := by
  refine (namespace_isolation 0 0 _ _ _ Call.twoTenants ?_).1
  intro call hcall
  simp only [Call.twoTenants, mem_cons, not_mem_nil, or_false] at hcall
  rcases hcall with rfl | rfl | rfl
  · intro v hv
    cases hv
    decide
  · trivial
  · trivial

end SparkInfer.Radix
