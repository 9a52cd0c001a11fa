import LetArith.Scope
import Mathlib.Data.List.Induction

/-!
# LetArith.Proofs.Persistence — scopes that are extended over and over

Any scope that has been made can be extended, as often as one likes and whatever has been made from it
before.  Scopes are numbered as they are made, and each one but the empty one has a link back to the
scope that was extended.  The links back from a scope lead to all bindings that are visible in it.

* `Scope.lookup?_eq_some_iff`: a name stands for the operand of its nearest binding.
* `Scope.History.Traced.perform`: every scope is what the links back from it say, also behind one more
  call.
* `Scope.History.prefix_of_foldlM`: calls add scopes and links, and change none.
* `scopes_are_persistent`: so what a name stands for in a scope is settled when the scope is made.
-/

namespace LetArith

namespace Scope

variable {s : Scope} {name : String} {operand : Operand}

/-- A name stands for the operand of its nearest binding. -/
theorem lookup?_eq_some_iff : s.lookup? name = some operand ↔ ∃ nearer binding farther,
    s.bindings = nearer ++ binding :: farther ∧ (∀ b ∈ nearer, b.name ≠ name) ∧ binding.name = name ∧
      binding.operand = operand := by
  rw [lookup?, Option.map_eq_some_iff]
  constructor
  · rintro ⟨binding, found, rfl⟩
    obtain ⟨same, nearer, farther, split, others⟩ := List.find?_eq_some_iff_append.mp found
    exact ⟨nearer, binding, farther, split, fun b hm => by simpa using others b hm, by simpa using same, rfl⟩
  · rintro ⟨nearer, binding, farther, split, others, rfl, rfl⟩
    refine ⟨binding, List.find?_eq_some_iff_append.mpr ⟨by simp, nearer, farther, split, fun b hm => ?_⟩, rfl⟩
    simpa using others b hm

theorem lookup?_eq_none_iff : s.lookup? name = none ↔ ∀ b ∈ s.bindings, b.name ≠ name := by
  simp [lookup?]

/-! ### Histories -/

/-- Where the operand of a call comes from: it is given, or it is what a name stands for in some scope. -/
inductive Source
  | given (operand : Operand)
  | found (scope : Nat) (name : String)

/-- A call that binds a name on top of some scope.  Scopes are numbered as they are made, and the empty
one is number 0. -/
structure BindCall where
  base : Nat
  name : String
  source : Source

/-- What a call has bound, and on top of which scope. -/
structure Link where
  base : Nat
  binding : Binding

/-- The scopes that have been made, and the link that led to each of them but the empty one. -/
structure History where
  scopes : List Scope
  links : List Link

namespace History

/-- There is the empty scope. -/
def start : History := ⟨[.empty], []⟩

/-- The operand that a call binds, if there is one. -/
def operand? (h : History) : Source → Option Operand
  | .given operand => some operand
  | .found scope name => h.scopes[scope]?.bind fun s => s.lookup? name

/-- Performs a call, if its scope has been made and there is an operand. -/
def perform (h : History) (call : BindCall) : Option History := do
  let s ← h.scopes[call.base]?
  let operand ← h.operand? call.source
  return ⟨h.scopes ++ [s.bind call.name operand], h.links ++ [⟨call.base, ⟨call.name, operand⟩⟩]⟩

/-- Performs calls one after another. -/
def run (calls : List BindCall) : Option History := calls.foldlM perform start

/-- The bindings that the links back from a scope lead to, the nearest one first. -/
inductive Chain (links : List Link) : Nat → List Binding → Prop
  | root : Chain links 0 []
  | link {k : Nat} {l : Link} {chain : List Binding} (made : links[k]? = some l)
      (above : Chain links l.base chain) :
      Chain links (k + 1) (l.binding :: chain)

variable {h h' : History} {call : BindCall} {calls more : List BindCall} {links links' : List Link} {i : Nat}
  {chain chain' : List Binding}

/-- The links lead to one list of bindings only. -/
theorem Chain.unique (first : Chain links i chain) (second : Chain links i chain') : chain = chain' := by
  induction first generalizing chain' with
  | root =>
    cases second
    rfl
  | link made above ih =>
    cases second with
    | link made' above' =>
      obtain rfl := Option.some.inj (made.symm.trans made')
      rw [ih above']

theorem getElem?_of_earlier {α : Type} {xs ys : List α} {x : α} (earlier : xs <+: ys)
    (there : xs[i]? = some x) :
    ys[i]? = some x := by
  obtain ⟨inside, rfl⟩ := List.getElem?_eq_some_iff.mp there
  exact List.prefix_iff_getElem?.mp earlier i inside

/-- What is in a list with one more element was there, or is the last one. -/
theorem getElem?_concat_cases {α : Type} {xs : List α} {x y : α} (there : (xs ++ [x])[i]? = some y) :
    xs[i]? = some y ∨ i = xs.length ∧ x = y := by
  rcases Nat.lt_or_ge i xs.length with old | new
  · rw [List.getElem?_append_left old] at there
    exact .inl there
  · rw [List.getElem?_append_right new] at there
    obtain ⟨inside, rfl⟩ := List.getElem?_eq_some_iff.mp there
    rw [List.length_singleton] at inside
    exact .inr ⟨by omega, (List.getElem_singleton inside).symm⟩

theorem Chain.mono (led : Chain links i chain) (earlier : links <+: links') : Chain links' i chain := by
  induction led with
  | root => exact .root
  | link made above ih => exact .link (getElem?_of_earlier earlier made) ih

/-! ### One call -/

/-- All that a call does. -/
theorem perform_eq_some_iff : h.perform call = some h' ↔ ∃ s operand, h.scopes[call.base]? = some s ∧
    h.operand? call.source = some operand ∧
      ⟨h.scopes ++ [s.bind call.name operand], h.links ++ [⟨call.base, ⟨call.name, operand⟩⟩]⟩ = h' := by
  simp only [perform, Bind.bind, Option.bind_eq_some_iff, pure, Option.some.injEq]
  constructor
  · rintro ⟨s, base, operand, found, made⟩
    exact ⟨s, operand, base, found, made⟩
  · rintro ⟨s, operand, base, found, made⟩
    exact ⟨s, base, operand, found, made⟩

/-- A call adds a scope and a link, and changes none. -/
theorem prefix_of_perform (step : h.perform call = some h') :
    h.scopes <+: h'.scopes ∧ h.links <+: h'.links := by
  obtain ⟨s, operand, -, -, rfl⟩ := perform_eq_some_iff.mp step
  exact ⟨List.prefix_append _ _, List.prefix_append _ _⟩

/-- What a call could bind, it could bind behind others. -/
theorem operand?_of_earlier {source : Source} {operand : Operand} (earlier : h.scopes <+: h'.scopes)
    (found : h.operand? source = some operand) : h'.operand? source = some operand := by
  cases source with
  | given operand => exact found
  | found scope name =>
    obtain ⟨s, there, visible⟩ := Option.bind_eq_some_iff.mp found
    exact Option.bind_eq_some_iff.mpr ⟨s, getElem?_of_earlier earlier there, visible⟩

/-- There is a link to every scope but the empty one, and every scope has the bindings that the links
lead to. -/
structure Traced (h : History) : Prop where
  length_eq : h.scopes.length = h.links.length + 1
  chain : ∀ (i : Nat) (s : Scope), h.scopes[i]? = some s → Chain h.links i s.bindings

theorem traced_start : Traced start := by
  refine ⟨rfl, fun i s hs => ?_⟩
  obtain ⟨inside, rfl⟩ := List.getElem?_eq_some_iff.mp hs
  obtain rfl : i = 0 := Nat.lt_one_iff.mp inside
  exact .root

/-- The scope that a call makes has one binding more than the one that it extends. -/
theorem Traced.perform (traced : h.Traced) (step : h.perform call = some h') : h'.Traced := by
  obtain ⟨s, operand, base, -, rfl⟩ := perform_eq_some_iff.mp step
  have length := traced.length_eq
  have earlier : h.links <+: h.links ++ [⟨call.base, ⟨call.name, operand⟩⟩] := List.prefix_append _ _
  refine ⟨by simp [length], fun i t ht => ?_⟩
  rcases getElem?_concat_cases ht with old | ⟨rfl, rfl⟩
  · exact (traced.chain i t old).mono earlier
  · -- the new scope has the index of the new link, whose base is an older scope
    rw [length]
    exact .link List.getElem?_concat_length ((traced.chain _ s base).mono earlier)

/-! ### Many calls -/

/-- By induction on the calls: they add scopes and links, and change none. -/
theorem prefix_of_foldlM (later : more.foldlM perform h = some h') :
    h.scopes <+: h'.scopes ∧ h.links <+: h'.links := by
  induction more generalizing h with
  | nil =>
    cases later
    exact ⟨List.prefix_refl _, List.prefix_refl _⟩
  | cons call more ih =>
    obtain ⟨next, step, others⟩ := Option.bind_eq_some_iff.mp later
    obtain ⟨scopes, links⟩ := prefix_of_perform step
    obtain ⟨scopes', links'⟩ := ih others
    exact ⟨scopes.trans scopes', links.trans links'⟩

theorem run_append_eq_some_iff :
    run (calls ++ more) = some h' ↔ ∃ h, run calls = some h ∧ more.foldlM perform h = some h' := by
  rw [run, List.foldlM_append]
  exact Option.bind_eq_some_iff

/-- The links are those of the calls, in order, and the operands are those that the calls say. -/
structure Records (h : History) (calls : List BindCall) : Prop where
  length_eq : h.links.length = calls.length
  link : ∀ (k : Nat) (call : BindCall), calls[k]? = some call →
    ∃ operand, h.operand? call.source = some operand ∧
      h.links[k]? = some ⟨call.base, ⟨call.name, operand⟩⟩

theorem Records.perform (records : h.Records calls) (step : h.perform call = some h') :
    h'.Records (calls ++ [call]) := by
  obtain ⟨scopes, links⟩ := prefix_of_perform step
  obtain ⟨s, operand, -, found, rfl⟩ := perform_eq_some_iff.mp step
  have length := records.length_eq
  refine ⟨by simp [length], fun k other hk => ?_⟩
  rcases getElem?_concat_cases hk with old | ⟨rfl, rfl⟩
  · obtain ⟨operand', found', made⟩ := records.link k other old
    exact ⟨operand', operand?_of_earlier scopes found', getElem?_of_earlier links made⟩
  · rw [← length]
    exact ⟨operand, operand?_of_earlier scopes found, List.getElem?_concat_length⟩

/-- By induction on the calls, from the empty scope on. -/
theorem traced_of_run (made : run calls = some h) : h.Traced ∧ h.Records calls := by
  induction calls using List.reverseRecOn generalizing h with
  | nil =>
    cases made
    exact ⟨traced_start, rfl, fun k call hk => by simp at hk⟩
  | append_singleton calls call ih =>
    obtain ⟨before, earlier, last⟩ := run_append_eq_some_iff.mp made
    obtain ⟨next, step, nothing⟩ := Option.bind_eq_some_iff.mp last
    cases nothing
    obtain ⟨traced, records⟩ := ih earlier
    exact ⟨traced.perform step, records.perform step⟩

end History
end Scope

open Scope

/-- Scopes are settled when they are made, whatever calls make them.  In this order: (1) there is one
scope for each call besides the empty one; (2) the links back from a scope lead to one list of bindings,
and a name stands for the operand of the nearest one there that has the name, with the place of that
operand, and for nothing if there is none; (3) a name is contained in a scope exactly if it stands for
something; (4) the link of a call has the operand that was given, or the very one that the name it was
asked for stands for; (5) more calls leave all scopes as they are; (6) every scope can be extended, by
every name and every operand, also by one that is found in another scope. -/
theorem scopes_are_persistent (calls : List BindCall) (h : History) (made : History.run calls = some h) :
    (h.scopes.length = calls.length + 1 ∧ h.links.length = calls.length) ∧
    (∀ (i : Nat) (s : Scope), h.scopes[i]? = some s → ∃ chain, History.Chain h.links i chain ∧
      (∀ other, History.Chain h.links i other → other = chain) ∧
      ∀ name, (∀ operand, s.lookup? name = some operand ↔ ∃ nearer binding farther,
          chain = nearer ++ binding :: farther ∧ (∀ b ∈ nearer, b.name ≠ name) ∧ binding.name = name ∧
            binding.operand = operand) ∧
        (s.lookup? name = none ↔ ∀ b ∈ chain, b.name ≠ name)) ∧
    (∀ (s : Scope) (name : String), s ∈ h.scopes → s.contains name = (s.lookup? name).isSome) ∧
    (∀ (k : Nat) (call : BindCall), calls[k]? = some call → ∃ operand, h.operand? call.source = some operand ∧
      h.links[k]? = some ⟨call.base, ⟨call.name, operand⟩⟩) ∧
    (∀ more h', History.run (calls ++ more) = some h' →
      ∀ (i : Nat) (s : Scope), h.scopes[i]? = some s → h'.scopes[i]? = some s) ∧
    ∀ (i : Nat) (s : Scope) (name : String) (source : Source) (operand : Operand), h.scopes[i]? = some s →
      h.operand? source = some operand → ∃ h', History.run (calls ++ [⟨i, name, source⟩]) = some h' ∧
        h'.scopes[h.scopes.length]? = some (s.bind name operand) := by
  obtain ⟨traced, records⟩ := History.traced_of_run made
  refine ⟨⟨?_, records.length_eq⟩, fun i s hs => ?_, fun s name _ => s.contains_eq_isSome name, records.link,
    fun more h' later i s hs => ?_, fun i s name source operand hs found => ?_⟩
  · rw [traced.length_eq, records.length_eq]
  · have led := traced.chain i s hs
    exact ⟨s.bindings, led, fun other led' => led'.unique led,
      fun name => ⟨fun operand => Scope.lookup?_eq_some_iff, Scope.lookup?_eq_none_iff⟩⟩
  · obtain ⟨middle, first, others⟩ := History.run_append_eq_some_iff.mp later
    obtain rfl := Option.some.inj (made.symm.trans first)
    exact History.getElem?_of_earlier (History.prefix_of_foldlM others).1 hs
  · refine ⟨⟨h.scopes ++ [s.bind name operand], h.links ++ [⟨i, ⟨name, operand⟩⟩]⟩, ?_,
      List.getElem?_concat_length⟩
    refine History.run_append_eq_some_iff.mpr ⟨h, made, ?_⟩
    exact Option.bind_eq_some_iff.mpr ⟨_, History.perform_eq_some_iff.mpr ⟨s, operand, hs, found, rfl⟩, rfl⟩

/-- Two extensions of one scope, in which `a` stands for 1: in the first it is bound again, to 2, and in
the second its new operand is bound to `b`. -/
def siblingCalls : List BindCall :=
  [⟨0, "a", .given ⟨7, .integer 1⟩⟩, ⟨1, "a", .given ⟨8, .integer 2⟩⟩, ⟨1, "b", .found 2 "a"⟩]

/-- In the second extension `a` stands for 1 still, whatever is called later. -/
theorem scopes_are_persistent_siblings :
    ∃ h s, History.run siblingCalls = some h ∧ h.scopes[3]? = some s ∧ s.lookup? "a" = some ⟨7, .integer 1⟩ ∧
      s.lookup? "b" = some ⟨8, .integer 2⟩ ∧ s.contains "c" = false ∧
      ∀ more h', History.run (siblingCalls ++ more) = some h' → h'.scopes[3]? = some s := by
  obtain ⟨h, made⟩ : ∃ h, History.run siblingCalls = some h := ⟨_, rfl⟩
  obtain ⟨-, looked, agrees, -, later, -⟩ := scopes_are_persistent siblingCalls h made
  obtain ⟨s, third, links⟩ : ∃ s, h.scopes[3]? = some s ∧
      History.Chain h.links 3 [⟨"b", ⟨8, .integer 2⟩⟩, ⟨"a", ⟨7, .integer 1⟩⟩] := by
    cases made
    refine ⟨_, rfl, .link (l := ⟨1, ⟨"b", ⟨8, .integer 2⟩⟩⟩) rfl ?_⟩
    exact .link (l := ⟨0, ⟨"a", ⟨7, .integer 1⟩⟩⟩) rfl .root
  obtain ⟨chain, -, unique, answers⟩ := looked 3 s third
  obtain rfl := unique _ links
  refine ⟨h, s, made, third, ((answers "a").1 _).mpr ?_, ((answers "b").1 _).mpr ?_, ?_,
    fun more h' run => later more h' run 3 s third⟩
  · exact ⟨[_], _, [], rfl, by simp, rfl, rfl⟩
  · exact ⟨[], _, [_], rfl, by simp, rfl, rfl⟩
  · rw [agrees s "c" (List.mem_of_getElem? third), (answers "c").2.mpr (by simp)]
    rfl

end LetArith
