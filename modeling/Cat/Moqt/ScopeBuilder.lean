import Cat.Moqt.ScopeMatchers
import Cat.Moqt.ScopesRead

/-!
# The scope builder

`MoqtScopeBuilder` makes a scope by a chain of calls, and an issuer knows the scope only by the
calls it wrote. What the relay then grants is read off the calls: some call lists the action,
the calls on the namespace are about its elements in turn, and the last call on the track
decides (`Asked`). That this is what the relay checks is `grants_iff_asked`, for every chain and
every request.

Two things in a chain are not what they look like. An empty track prefix is any track, but an
empty namespace prefix is met by no element, since the builder drops the first and keeps the
second; and behind a `namespace_nil` there is no element to meet. Chains with such calls make
scopes that grant nothing, and `Satisfiable` lists them: it is exact, in that every other chain
grants some request.

The wire keeps less than the builder makes. It has no place for a second `namespace_nil` and
refuses an empty prefix or suffix, so among the scopes that grant something it keeps all with
one `namespace_nil` at most. `builtScopes_exact` is the three statements together.

The fields of the built scope are first computed from the calls (`ofCalls_eq`): actions and
matches are collected, the track is the last that was set. Everything after is about three
lists, and the recursion over the calls is not met again. The four roles of the source are
chains, and what they grant is nested (`roles_nested`).
-/

set_option autoImplicit false

namespace Cat

open Cbor

/-! ## The builder

A chain of calls is a list, one constructor for each method with its argument. Methods that
stand for a group of others are expanded, as the source does.
-/

namespace BinaryMatch

def exact (data : Bytes) : BinaryMatch := ⟨.exact, data⟩
def pre (data : Bytes) : BinaryMatch := ⟨.pre, data⟩
def suf (data : Bytes) : BinaryMatch := ⟨.suf, data⟩

end BinaryMatch

namespace NamespaceMatch

def exact (data : Bytes) : NamespaceMatch := .match_ (.exact data)
def pre (data : Bytes) : NamespaceMatch := .match_ (.pre data)
def suf (data : Bytes) : NamespaceMatch := .match_ (.suf data)

end NamespaceMatch

structure MoqtScopeBuilder where
  actions : List MoqtAction := []
  namespaceMatches : List NamespaceMatch := []
  trackMatch : Option BinaryMatch := none

/-- One call of the builder, with its argument. Calls for a group of actions stand for the actions
    they add. -/
inductive ScopeCall where
  | action (action : MoqtAction)
  | actions (actions : List MoqtAction)
  | publisher
  | subscriber
  | fullAccess
  | namespaceExact (ns : Bytes)
  | namespacePrefix (start : Bytes)
  | namespaceSuffix (ending : Bytes)
  | namespacePath (path : Bytes)
  | namespaceNil
  | trackExact (track : Bytes)
  | trackPrefix (start : Bytes)
  | trackSuffix (ending : Bytes)
  | trackAny
  deriving DecidableEq

/-- What stands between the slashes of a path, if anything does. -/
def pathSegments (path : Bytes) : List Bytes :=
  (path.splitOn 0x2f).filter fun segment => !segment.isEmpty

namespace MoqtScopeBuilder

def extendActions (b : MoqtScopeBuilder) (actions : List MoqtAction) : MoqtScopeBuilder :=
  { b with actions := b.actions ++ actions }

def push (b : MoqtScopeBuilder) (m : NamespaceMatch) : MoqtScopeBuilder :=
  { b with namespaceMatches := b.namespaceMatches ++ [m] }

def setTrack (b : MoqtScopeBuilder) (m : Option BinaryMatch) : MoqtScopeBuilder :=
  { b with trackMatch := m }

def apply (b : MoqtScopeBuilder) : ScopeCall → MoqtScopeBuilder
  | .action action => b.extendActions [action]
  | .actions actions => b.extendActions actions
  | .publisher => b.extendActions [.publishNamespace, .publish]
  | .subscriber => b.extendActions [.subscribeNamespace, .subscribe, .fetch]
  | .fullAccess => b.extendActions [.clientSetup, .serverSetup, .publishNamespace,
      .subscribeNamespace, .subscribe, .requestUpdate, .publish, .fetch, .trackStatus]
  | .namespaceExact ns => b.push (.exact ns)
  | .namespacePrefix start => b.push (.pre start)
  | .namespaceSuffix ending => b.push (.suf ending)
  | .namespacePath path => (pathSegments path).foldl (fun b segment => b.push (.exact segment)) b
  | .namespaceNil => b.push .nil
  | .trackExact track => b.setTrack (some (.exact track))
  | .trackPrefix start => b.setTrack (if start.isEmpty then none else some (.pre start))
  | .trackSuffix ending => b.setTrack (if ending.isEmpty then none else some (.suf ending))
  | .trackAny => b.setTrack none

def build (b : MoqtScopeBuilder) : MoqtScope := ⟨b.actions, b.namespaceMatches, b.trackMatch⟩

/-- The scope of a chain, from `MoqtScopeBuilder::new` on. -/
def ofCalls (calls : List ScopeCall) : MoqtScope := (calls.foldl apply {}).build

end MoqtScopeBuilder

/-! ## What the calls say

The meaning of a chain, without the scope it builds: which actions it lists, what it asks of the
elements of the namespace in turn, what it asks of the track. A call for a path says something
about as many elements as the path has segments.
-/

namespace ScopeCall

def covers : ScopeCall → List MoqtAction
  | action a => [a]
  | actions as => as
  | publisher => [.publishNamespace, .publish]
  | subscriber => [.subscribeNamespace, .subscribe, .fetch]
  | fullAccess => [.clientSetup, .serverSetup, .publishNamespace, .subscribeNamespace, .subscribe,
      .requestUpdate, .publish, .fetch, .trackStatus]
  | _ => []

/-- What is asked of the next elements of the namespace, `none` where it has ended. -/
def elements : ScopeCall → List (Option Bytes → Prop)
  | namespaceExact ns => [fun element => element = some ns]
  | namespacePrefix start => [fun element => start ≠ [] ∧ ∃ data ∈ element, start <+: data]
  | namespaceSuffix ending => [fun element => ending ≠ [] ∧ ∃ data ∈ element, ending <:+ data]
  | namespacePath path => (pathSegments path).map fun segment element => element = some segment
  | namespaceNil => [fun element => element = none]
  | _ => []

/-- What is asked of the track. -/
def track? : ScopeCall → Option (Bytes → Prop)
  | trackExact track => some fun data => data = track
  | trackPrefix start => some fun data => start <+: data
  | trackSuffix ending => some fun data => ending <:+ data
  | trackAny => some fun _ => True
  | _ => none

end ScopeCall

/-- The calls ask for the request. -/
structure Asked (calls : List ScopeCall) (action : MoqtAction) (namespaces : List Bytes)
    (track : Bytes) : Prop where
  action : ∃ call ∈ calls, action ∈ call.covers
  elements : ∀ (i : Nat) (demand : Option Bytes → Prop),
    (calls.flatMap ScopeCall.elements)[i]? = some demand → demand namespaces[i]?
  track : ∀ demand ∈ (calls.filterMap ScopeCall.track?).getLast?, demand track

/-- Some request is asked for: an action is listed, no element is to have an empty prefix or
    suffix, and no call after a `namespace_nil` is about an element that is there. -/
structure Satisfiable (calls : List ScopeCall) : Prop where
  action : ∃ call ∈ calls, call.covers ≠ []
  prefixes : .namespacePrefix [] ∉ calls
  suffixes : .namespaceSuffix [] ∉ calls
  nils : calls.Pairwise fun call later =>
    call = .namespaceNil → later.elements = [] ∨ later = .namespaceNil

/-! ## The fields of the scope

Each field of the result depends on the calls in its own way: actions are collected, matches
appended, and the track is what was set last.
-/

namespace ScopeCall

/-- The matches a call adds. -/
def matchers : ScopeCall → List NamespaceMatch
  | namespaceExact ns => [.exact ns]
  | namespacePrefix start => [.pre start]
  | namespaceSuffix ending => [.suf ending]
  | namespacePath path => (pathSegments path).map .exact
  | namespaceNil => [.nil]
  | _ => []

/-- The track match a call sets. -/
def trackMatch? : ScopeCall → Option (Option BinaryMatch)
  | trackExact track => some (some (.exact track))
  | trackPrefix start => some (if start.isEmpty then none else some (.pre start))
  | trackSuffix ending => some (if ending.isEmpty then none else some (.suf ending))
  | trackAny => some none
  | _ => none

end ScopeCall

namespace MoqtScopeBuilder

theorem foldl_push (segments : List Bytes) (b : MoqtScopeBuilder) :
    segments.foldl (fun b segment => b.push (.exact segment)) b =
      { b with namespaceMatches := b.namespaceMatches ++ segments.map .exact } := by
  induction segments generalizing b with
  | nil => rw [List.foldl_nil, List.map_nil, List.append_nil]
  | cons segment segments ih =>
    rw [List.foldl_cons, ih, push, List.map_cons, List.append_assoc, List.singleton_append]

/-- What one call adds to each of the three fields. -/
theorem apply_eq (b : MoqtScopeBuilder) (call : ScopeCall) :
    b.apply call = ⟨b.actions ++ call.covers, b.namespaceMatches ++ call.matchers,
      call.trackMatch?.getD b.trackMatch⟩ := by
  cases call with
  | action | actions | publisher | subscriber | fullAccess =>
    simp [apply, extendActions, ScopeCall.covers, ScopeCall.matchers, ScopeCall.trackMatch?]
  | namespaceExact | namespacePrefix | namespaceSuffix | namespaceNil =>
    simp [apply, push, ScopeCall.covers, ScopeCall.matchers, ScopeCall.trackMatch?]
  | namespacePath path =>
    simp [apply, foldl_push, ScopeCall.covers, ScopeCall.matchers, ScopeCall.trackMatch?]
  | trackExact | trackPrefix | trackSuffix | trackAny =>
    simp [apply, setTrack, ScopeCall.covers, ScopeCall.matchers, ScopeCall.trackMatch?]

theorem foldl_apply (calls : List ScopeCall) (b : MoqtScopeBuilder) :
    calls.foldl apply b = ⟨b.actions ++ calls.flatMap ScopeCall.covers,
      b.namespaceMatches ++ calls.flatMap ScopeCall.matchers,
      (calls.filterMap ScopeCall.trackMatch?).getLast?.getD b.trackMatch⟩ := by
  induction calls generalizing b with
  | nil => simp
  | cons call calls ih =>
    rw [List.foldl_cons, ih, apply_eq, List.flatMap_cons, List.flatMap_cons, List.filterMap_cons]
    cases call.trackMatch? with
    | none => simp
    | some m => simp [List.getLast?_cons]

/-- **The fields of a built scope**, read off its calls. -/
theorem ofCalls_eq (calls : List ScopeCall) :
    ofCalls calls = ⟨calls.flatMap ScopeCall.covers, calls.flatMap ScopeCall.matchers,
      (calls.filterMap ScopeCall.trackMatch?).getLast?.getD none⟩ := by
  rw [ofCalls, foldl_apply]
  rfl

end MoqtScopeBuilder

/-! ## What the fields mean

A match is met by an element as its call says. An empty prefix or suffix is met by any element
that is there, and for a track the builder drops it.
-/

theorem NamespaceMatch.matches_exact {data : Bytes} {element : Option Bytes} :
    (NamespaceMatch.exact data).matches_ element = true ↔ element = some data := by
  cases element <;> simp [exact, matches_, BinaryMatch.exact, BinaryMatch.matches_]

theorem NamespaceMatch.matches_nil {element : Option Bytes} :
    NamespaceMatch.nil.matches_ element = true ↔ element = none := by
  cases element <;> simp [matches_]

theorem BinaryMatch.matches_pre {start data : Bytes} :
    (BinaryMatch.pre start).matches_ data = true ↔ start ≠ [] ∧ start <+: data := by
  cases start <;> simp [pre, matches_]

theorem BinaryMatch.matches_suf {ending data : Bytes} :
    (BinaryMatch.suf ending).matches_ data = true ↔ ending ≠ [] ∧ ending <:+ data := by
  cases ending <;> simp [suf, matches_]

theorem NamespaceMatch.matches_pre {start : Bytes} {element : Option Bytes} :
    (NamespaceMatch.pre start).matches_ element = true ↔
      start ≠ [] ∧ ∃ data ∈ element, start <+: data := by
  cases element with
  | none => simp [pre, matches_]
  | some data => simp [pre, matches_, BinaryMatch.matches_pre]

theorem NamespaceMatch.matches_suf {ending : Bytes} {element : Option Bytes} :
    (NamespaceMatch.suf ending).matches_ element = true ↔
      ending ≠ [] ∧ ∃ data ∈ element, ending <:+ data := by
  cases element with
  | none => simp [suf, matches_]
  | some data => simp [suf, matches_, BinaryMatch.matches_suf]

namespace ScopeCall

theorem elements_eq (call : ScopeCall) :
    call.elements = call.matchers.map fun m element => m.matches_ element = true := by
  cases call with
  | namespaceExact ns => simp [elements, matchers, NamespaceMatch.matches_exact]
  | namespacePrefix start => simp [elements, matchers, NamespaceMatch.matches_pre]
  | namespaceSuffix ending => simp [elements, matchers, NamespaceMatch.matches_suf]
  | namespacePath path => simp [elements, matchers, NamespaceMatch.matches_exact]
  | namespaceNil => simp [elements, matchers, NamespaceMatch.matches_nil]
  | _ => rfl

theorem flatMap_elements (calls : List ScopeCall) :
    calls.flatMap elements =
      (calls.flatMap matchers).map fun m element => m.matches_ element = true := by
  rw [List.map_flatMap]
  exact List.flatMap_congr fun call _ => call.elements_eq

/-- An empty prefix or suffix of a track sets no match: it is what any track meets. -/
theorem track?_eq (call : ScopeCall) :
    call.track? = call.trackMatch?.map fun m data => ∀ m' ∈ m, m'.matches_ data = true := by
  cases call with
  | trackExact track => simp [track?, trackMatch?, BinaryMatch.exact, BinaryMatch.matches_]
  | trackPrefix start =>
    cases start with
    | nil => simp [track?, trackMatch?]
    | cons => simp [track?, trackMatch?, BinaryMatch.matches_pre]
  | trackSuffix ending =>
    cases ending with
    | nil => simp [track?, trackMatch?]
    | cons => simp [track?, trackMatch?, BinaryMatch.matches_suf]
  | trackAny => simp [track?, trackMatch?]
  | _ => rfl

theorem filterMap_track? (calls : List ScopeCall) :
    calls.filterMap track? = (calls.filterMap trackMatch?).map
      fun m data => ∀ m' ∈ m, m'.matches_ data = true := by
  rw [List.map_filterMap]
  exact List.filterMap_congr fun call _ => call.track?_eq

end ScopeCall

/-- **A scope grants what its calls ask for.** -/
theorem grants_iff_asked {calls : List ScopeCall} {action : MoqtAction} {namespaces : List Bytes}
    {track : Bytes} :
    (MoqtScopeBuilder.ofCalls calls).Grants action namespaces track ↔
      Asked calls action namespaces track := by
  have hactions : action ∈ calls.flatMap ScopeCall.covers ↔
      ∃ call ∈ calls, action ∈ call.covers := List.mem_flatMap
  have helements : (∀ (i : Nat) (m : NamespaceMatch),
        (calls.flatMap ScopeCall.matchers)[i]? = some m → m.matches_ namespaces[i]? = true) ↔
      ∀ (i : Nat) (demand : Option Bytes → Prop),
        (calls.flatMap ScopeCall.elements)[i]? = some demand → demand namespaces[i]? := by
    rw [ScopeCall.flatMap_elements]
    simp only [List.getElem?_map, Option.map_eq_some_iff]
    constructor
    · rintro h i _ ⟨m, hm, rfl⟩
      exact h i m hm
    · intro h i m hm
      exact h i _ ⟨m, hm, rfl⟩
  have htrack : (∀ m ∈ (calls.filterMap ScopeCall.trackMatch?).getLast?.getD none,
        m.matches_ track = true) ↔
      ∀ demand ∈ (calls.filterMap ScopeCall.track?).getLast?, demand track := by
    rw [ScopeCall.filterMap_track?, List.getLast?_map]
    cases (calls.filterMap ScopeCall.trackMatch?).getLast? with
    | none => simp
    | some m => simp
  rw [MoqtScopeBuilder.ofCalls_eq]
  constructor
  · intro h
    exact ⟨hactions.mp h.action, helements.mp h.selectors, htrack.mp h.track⟩
  · intro h
    exact ⟨hactions.mpr h.action, helements.mpr h.elements, htrack.mpr h.track⟩

/-! ## Roles

The ready-made scopes are chains as well, so what they grant is read off in the same way, and
compared.
-/

namespace roles

def publisher (ns trackPrefix : Bytes) : MoqtScope :=
  MoqtScopeBuilder.ofCalls [.publisher, .namespaceExact ns, .trackPrefix trackPrefix]

def subscriber (ns trackPrefix : Bytes) : MoqtScope :=
  MoqtScopeBuilder.ofCalls [.subscriber, .namespaceExact ns, .trackPrefix trackPrefix]

def admin (ns : Bytes) : MoqtScope :=
  MoqtScopeBuilder.ofCalls [.fullAccess, .namespaceExact ns]

def readOnly (ns trackPrefix : Bytes) : MoqtScope :=
  MoqtScopeBuilder.ofCalls
    [.actions [.subscribe, .fetch], .namespaceExact ns, .trackPrefix trackPrefix]

section
variable {action : MoqtAction} {ns start track : Bytes} {namespaces : List Bytes}

/-- Actions on one namespace, and on the tracks with a prefix. -/
theorem grants_iff {actions : ScopeCall} (helements : actions.elements = [])
    (htrack : actions.track? = none) :
    (MoqtScopeBuilder.ofCalls [actions, .namespaceExact ns, .trackPrefix start]).Grants action
        namespaces track ↔
      action ∈ actions.covers ∧ namespaces[0]? = some ns ∧ start <+: track := by
  have helements : [actions, .namespaceExact ns, .trackPrefix start].flatMap ScopeCall.elements =
      [fun element => element = some ns] := by
    rw [List.flatMap_cons, helements]
    rfl
  have htrack : [actions, .namespaceExact ns, .trackPrefix start].filterMap ScopeCall.track? =
      [fun data => start <+: data] := by
    rw [List.filterMap_cons_none htrack]
    rfl
  rw [grants_iff_asked]
  constructor
  · rintro ⟨⟨call, hcall, haction⟩, hasked, hdecides⟩
    rw [helements] at hasked
    rw [htrack] at hdecides
    refine ⟨?_, hasked 0 _ rfl, hdecides _ rfl⟩
    obtain rfl | hcall := List.mem_cons.mp hcall
    · exact haction
    · obtain rfl | hcall := List.mem_cons.mp hcall
      · cases haction
      · obtain rfl := List.mem_singleton.mp hcall
        cases haction
  · rintro ⟨haction, hns, hstart⟩
    refine ⟨⟨actions, List.mem_cons_self, haction⟩, ?_, ?_⟩
    · rw [helements]
      intro i demand hdemand
      cases i with
      | zero =>
        obtain rfl := Option.some.inj hdemand
        exact hns
      | succ i => cases hdemand
    · rw [htrack]
      rintro _ ⟨⟩
      exact hstart

theorem publisher_grants_iff :
    (publisher ns start).Grants action namespaces track ↔
      action ∈ [.publishNamespace, .publish] ∧ namespaces[0]? = some ns ∧ start <+: track :=
  grants_iff rfl rfl

theorem subscriber_grants_iff :
    (subscriber ns start).Grants action namespaces track ↔
      action ∈ [.subscribeNamespace, .subscribe, .fetch] ∧ namespaces[0]? = some ns ∧
        start <+: track :=
  grants_iff rfl rfl

theorem readOnly_grants_iff :
    (readOnly ns start).Grants action namespaces track ↔
      action ∈ [.subscribe, .fetch] ∧ namespaces[0]? = some ns ∧ start <+: track :=
  grants_iff rfl rfl

/-- Every action and every track. -/
theorem admin_grants_iff :
    (admin ns).Grants action namespaces track ↔ namespaces[0]? = some ns := by
  have hall : action ∈ ScopeCall.fullAccess.covers := by cases action <;> decide
  -- no call on the track is the call with an empty prefix
  have hadmin : (admin ns).Grants action namespaces track ↔ _ :=
    @grants_iff action ns [] track namespaces .fullAccess rfl rfl
  rw [hadmin, and_iff_right hall, and_iff_left List.nil_prefix]

/-- **The roles are nested**, and what a publisher may do no subscriber may. -/
theorem roles_nested {ns' start' : Bytes} :
    ((readOnly ns start).Grants action namespaces track →
        (subscriber ns start).Grants action namespaces track) ∧
      ((subscriber ns start).Grants action namespaces track ∨
          (publisher ns start).Grants action namespaces track →
        (admin ns).Grants action namespaces track) ∧
      ((publisher ns start).Grants action namespaces track →
        ¬(subscriber ns' start').Grants action namespaces track) := by
  rw [readOnly_grants_iff, subscriber_grants_iff, subscriber_grants_iff, publisher_grants_iff,
    admin_grants_iff]
  refine ⟨fun h => ⟨List.mem_cons_of_mem _ h.1, h.2⟩, fun h => h.elim (·.2.1) (·.2.1), ?_⟩
  rintro ⟨hpublisher, -⟩ ⟨hsubscriber, -⟩
  cases action <;> simp at hpublisher hsubscriber

end

end roles

/-! ## Scopes that grant nothing

A chain can ask for what no request has: no action at all, or something of the element behind a
`nil`. What remains can be met, and a request that meets it is written down from the calls.
-/

/-- Some input is matched, unless it is to have an empty prefix or suffix. -/
theorem BinaryMatch.exists_matches {m : BinaryMatch} :
    (∃ data, m.matches_ data = true) ↔ m.isEmptyAffix = false := by
  obtain ⟨kind, pattern⟩ := m
  cases kind with
  | any => simp [matches_, isEmptyAffix]
  | exact => simp [matches_, isEmptyAffix]
  | pre =>
    cases pattern with
    | nil => simp [matches_, isEmptyAffix]
    | cons b pattern =>
      have hself : (BinaryMatch.pre (b :: pattern)).matches_ (b :: pattern) = true :=
        matches_pre.mpr ⟨List.cons_ne_nil b pattern, List.prefix_rfl⟩
      exact ⟨fun _ => rfl, fun _ => ⟨b :: pattern, hself⟩⟩
  | suf =>
    cases pattern with
    | nil => simp [matches_, isEmptyAffix]
    | cons b pattern =>
      have hself : (BinaryMatch.suf (b :: pattern)).matches_ (b :: pattern) = true :=
        matches_suf.mpr ⟨List.cons_ne_nil b pattern, List.suffix_rfl⟩
      exact ⟨fun _ => rfl, fun _ => ⟨b :: pattern, hself⟩⟩

/-- Some namespace is matched exactly if each match is matched by some element and nothing but
    the end is asked for behind the end. -/
theorem exists_namespaces_iff {ms : List NamespaceMatch} :
    (∃ namespaces : List Bytes, ∀ (i : Nat) (m : NamespaceMatch), ms[i]? = some m →
        m.matches_ namespaces[i]? = true) ↔
      (∀ m ∈ ms, m.isEmptyAffix = false) ∧ ms.Pairwise fun m later => m = .nil → later = .nil := by
  -- on the matches: an element for the first, the rest of the namespace for the others
  induction ms with
  | nil => simp
  | cons m ms ih =>
    rw [List.forall_mem_cons, List.pairwise_cons]
    cases m with
    | nil =>
      have hrest : (∀ later ∈ ms, NamespaceMatch.nil = .nil → later = .nil) →
          (∀ m ∈ ms, m.isEmptyAffix = false) ∧
            ms.Pairwise fun m later => m = .nil → later = .nil := by
        intro h
        refine ⟨fun m hm => ?_,
          List.pairwise_of_forall_mem_list fun _ _ later hlater _ => h later hlater rfl⟩
        rw [h m hm rfl]
        rfl
      constructor
      · rintro ⟨namespaces, h⟩
        have hnone := NamespaceMatch.matches_nil.mp (h 0 .nil rfl)
        obtain rfl : namespaces = [] := by
          cases namespaces with
          | nil => rfl
          | cons => cases hnone
        have hall : ∀ later ∈ ms, NamespaceMatch.nil = .nil → later = .nil := by
          intro later hlater _
          obtain ⟨i, hi⟩ := List.getElem?_of_mem hlater
          have hmatch := h (i + 1) later hi
          cases later with
          | nil => rfl
          | match_ m => cases hmatch
        exact ⟨⟨rfl, (hrest hall).1⟩, hall, (hrest hall).2⟩
      · rintro ⟨-, hall, -⟩
        refine ⟨[], fun i m hm => ?_⟩
        cases i with
        | zero =>
          obtain rfl := Option.some.inj hm
          rfl
        | succ i =>
          rw [hall m (List.mem_of_getElem? hm) rfl]
          rfl
    | match_ m =>
      rw [NamespaceMatch.isEmptyAffix, ← BinaryMatch.exists_matches]
      constructor
      · rintro ⟨namespaces, h⟩
        have hfirst := h 0 (.match_ m) rfl
        cases namespaces with
        | nil => cases hfirst
        | cons data namespaces =>
          obtain ⟨haffix, hnil⟩ := ih.mp ⟨namespaces, fun i m hm => h (i + 1) m hm⟩
          exact ⟨⟨⟨data, hfirst⟩, haffix⟩, (fun _ _ hno => by cases hno), hnil⟩
      · rintro ⟨⟨⟨data, hdata⟩, haffix⟩, -, hnil⟩
        obtain ⟨namespaces, h⟩ := ih.mpr ⟨haffix, hnil⟩
        refine ⟨data :: namespaces, fun i m hm => ?_⟩
        cases i with
        | zero =>
          obtain rfl := Option.some.inj hm
          exact hdata
        | succ i => exact h i m hm

namespace ScopeCall

theorem covers_flatMap {calls : List ScopeCall} :
    calls.flatMap covers ≠ [] ↔ ∃ call ∈ calls, call.covers ≠ [] := by
  simp [List.flatMap_eq_nil_iff]

/-- A match that a call adds. -/
theorem eq_of_mem_matchers {call : ScopeCall} {m : NamespaceMatch} (h : m ∈ call.matchers) :
    (∃ data, m = .exact data) ∨ (∃ start, call = .namespacePrefix start ∧ m = .pre start) ∨
      (∃ ending, call = .namespaceSuffix ending ∧ m = .suf ending) ∨
      call = .namespaceNil ∧ m = .nil := by
  cases call with
  | namespaceExact ns => exact .inl ⟨ns, List.mem_singleton.mp h⟩
  | namespacePrefix start => exact .inr (.inl ⟨start, rfl, List.mem_singleton.mp h⟩)
  | namespaceSuffix ending => exact .inr (.inr (.inl ⟨ending, rfl, List.mem_singleton.mp h⟩))
  | namespacePath path =>
    obtain ⟨segment, -, rfl⟩ := List.mem_map.mp h
    exact .inl ⟨segment, rfl⟩
  | namespaceNil => exact .inr (.inr (.inr ⟨rfl, List.mem_singleton.mp h⟩))
  | _ => cases h

theorem nil_mem_matchers {call : ScopeCall} : .nil ∈ call.matchers ↔ call = .namespaceNil := by
  constructor
  · intro h
    obtain ⟨_, h⟩ | ⟨_, -, h⟩ | ⟨_, -, h⟩ | ⟨h, -⟩ := eq_of_mem_matchers h
    · cases h
    · cases h
    · cases h
    · exact h
  · rintro rfl
    exact List.mem_singleton_self _

theorem matchers_nil_iff {call : ScopeCall} :
    (∀ m ∈ call.matchers, m = .nil) ↔ call.elements = [] ∨ call = .namespaceNil := by
  rw [elements_eq, List.map_eq_nil_iff]
  constructor
  · intro h
    by_cases hcall : .nil ∈ call.matchers
    · exact .inr (nil_mem_matchers.mp hcall)
    · exact .inl (List.eq_nil_iff_forall_not_mem.mpr fun m hm => hcall (h m hm ▸ hm))
  · rintro (h | rfl) m hm
    · rw [h] at hm
      cases hm
    · exact List.mem_singleton.mp hm

theorem matchers_affix {calls : List ScopeCall} :
    (∀ m ∈ calls.flatMap matchers, m.isEmptyAffix = false) ↔
      .namespacePrefix [] ∉ calls ∧ .namespaceSuffix [] ∉ calls := by
  constructor
  · intro h
    refine ⟨fun hcall => ?_, fun hcall => ?_⟩
    · have hm := h (.pre []) (List.mem_flatMap.mpr ⟨_, hcall, List.mem_singleton_self _⟩)
      cases hm
    · have hm := h (.suf []) (List.mem_flatMap.mpr ⟨_, hcall, List.mem_singleton_self _⟩)
      cases hm
  · rintro ⟨hpre, hsuf⟩ m hm
    obtain ⟨call, hcall, hm⟩ := List.mem_flatMap.mp hm
    obtain ⟨_, rfl⟩ | ⟨start, rfl, rfl⟩ | ⟨ending, rfl, rfl⟩ | ⟨-, rfl⟩ := eq_of_mem_matchers hm
    · rfl
    · cases start with
      | nil => exact absurd hcall hpre
      | cons => rfl
    · cases ending with
      | nil => exact absurd hcall hsuf
      | cons => rfl
    · rfl

/-- No match that is one of an element behind a `nil`, in terms of the calls. -/
theorem matchers_nils {calls : List ScopeCall} :
    ((calls.flatMap matchers).Pairwise fun m later => m = .nil → later = .nil) ↔
      calls.Pairwise fun call later =>
        call = .namespaceNil → later.elements = [] ∨ later = .namespaceNil := by
  rw [List.pairwise_flatMap]
  have hwithin : ∀ call ∈ calls,
      call.matchers.Pairwise fun m later => m = .nil → later = .nil := by
    intro call _
    refine List.pairwise_of_forall_mem_list fun m hm later hlater hnil => ?_
    obtain rfl := nil_mem_matchers.mp (hnil ▸ hm)
    exact List.mem_singleton.mp hlater
  rw [and_iff_right hwithin]
  refine List.Pairwise.iff fun call later => ?_
  rw [← matchers_nil_iff, ← nil_mem_matchers]
  constructor
  · exact fun h hnil m hm => h _ hnil m hm rfl
  · rintro h m hm later hlater rfl
    exact h hm later hlater

/-- What a call sets is no wildcard and for no empty prefix or suffix. -/
theorem trackMatch?_spec {call : ScopeCall} {m : BinaryMatch}
    (h : call.trackMatch? = some (some m)) : m.matchType ≠ .any ∧ m.isEmptyAffix = false := by
  cases call with
  | trackExact track =>
    obtain rfl := Option.some.inj (Option.some.inj h)
    exact ⟨(fun hany => by cases hany), rfl⟩
  | trackPrefix start =>
    cases start with
    | nil => cases h
    | cons =>
      obtain rfl := Option.some.inj (Option.some.inj h)
      exact ⟨(fun hany => by cases hany), rfl⟩
  | trackSuffix ending =>
    cases ending with
    | nil => cases h
    | cons =>
      obtain rfl := Option.some.inj (Option.some.inj h)
      exact ⟨(fun hany => by cases hany), rfl⟩
  | _ => cases h

end ScopeCall

namespace MoqtScopeBuilder

variable {calls : List ScopeCall}

theorem ofCalls_track {m : BinaryMatch} (h : m ∈ (ofCalls calls).trackMatch) :
    m.matchType ≠ .any ∧ m.isEmptyAffix = false := by
  rw [ofCalls_eq, Option.mem_def, Option.getD_eq_iff] at h
  obtain h | ⟨-, h⟩ := h
  · obtain ⟨call, -, hcall⟩ := List.mem_filterMap.mp (List.mem_of_getLast? h)
    exact ScopeCall.trackMatch?_spec hcall
  · cases h

/-- A request that is granted is put together from the calls: an action that is listed, an element
    for each match, and a track that meets the last one. -/
theorem exists_grants_iff :
    (∃ action namespaces track, (ofCalls calls).Grants action namespaces track) ↔
      Satisfiable calls := by
  have hactions : (ofCalls calls).actions = calls.flatMap ScopeCall.covers := by rw [ofCalls_eq]
  have hnames : (ofCalls calls).namespaceMatches = calls.flatMap ScopeCall.matchers := by
    rw [ofCalls_eq]
  constructor
  · rintro ⟨action, namespaces, track, haction, hselectors, -⟩
    rw [hactions] at haction
    rw [hnames] at hselectors
    obtain ⟨haffix, hnils⟩ := exists_namespaces_iff.mp ⟨namespaces, hselectors⟩
    obtain ⟨hpre, hsuf⟩ := ScopeCall.matchers_affix.mp haffix
    exact ⟨ScopeCall.covers_flatMap.mp (List.ne_nil_of_mem haction), hpre, hsuf,
      ScopeCall.matchers_nils.mp hnils⟩
  · intro h
    obtain ⟨action, haction⟩ := List.exists_mem_of_ne_nil _ (ScopeCall.covers_flatMap.mpr h.action)
    obtain ⟨namespaces, hselectors⟩ := exists_namespaces_iff.mpr
      ⟨ScopeCall.matchers_affix.mpr ⟨h.prefixes, h.suffixes⟩, ScopeCall.matchers_nils.mpr h.nils⟩
    have htrack : ∃ track, ∀ m ∈ (ofCalls calls).trackMatch, m.matches_ track = true := by
      cases hm : (ofCalls calls).trackMatch with
      | none => exact ⟨[], fun m hm => absurd hm (Option.not_mem_none m)⟩
      | some m =>
        obtain ⟨track, htrack⟩ := BinaryMatch.exists_matches.mpr (ofCalls_track hm).2
        exact ⟨track, fun m' hm' => Option.mem_some.mp hm' ▸ htrack⟩
    obtain ⟨track, htrack⟩ := htrack
    exact ⟨action, namespaces, track, hactions ▸ haction, hnames ▸ hselectors, htrack⟩

end MoqtScopeBuilder

/-! ## Scopes on the wire

The encoder refuses a match behind a `nil` and the decoder an empty prefix or suffix. So a scope
that grants something is written, and is read if the chain has no such match.
-/

/-- The encoder goes through the matches and stops at whatever stands behind a `nil`. -/
theorem encodeNamespaceMatches_ok {ms : List NamespaceMatch}
    (h : ∀ m ∈ ms, ∃ v, encodeNamespaceMatch m = .ok v) {seen : Bool} :
    (∃ vs, encodeNamespaceMatches seen ms = .ok vs) ↔
      (seen = true → ms = []) ∧ ms.Pairwise fun m _ => m ≠ .nil := by
  induction ms generalizing seen with
  | nil => simp [encodeNamespaceMatches]
  | cons m ms ih =>
    rw [List.forall_mem_cons] at h
    obtain ⟨⟨v, hv⟩, h⟩ := h
    have hrest := @ih h (seen || m == .nil)
    rw [List.pairwise_cons]
    constructor
    · rintro ⟨vs, hvs⟩
      obtain ⟨hseen, hvs⟩ := Except.guard_eq_ok.mp hvs
      obtain ⟨_, -, hvs⟩ := Except.bind_eq_ok.mp hvs
      obtain ⟨vs', hvs', -⟩ := Except.bind_eq_ok.mp hvs
      obtain ⟨hempty, hnils⟩ := hrest.mp ⟨vs', hvs'⟩
      refine ⟨fun hs => absurd hs hseen, fun later hlater hnil => ?_, hnils⟩
      rw [hempty (by rw [hnil]; simp)] at hlater
      cases hlater
    · rintro ⟨hseen, hfirst, hnils⟩
      have hno : ¬seen = true := fun hs => List.cons_ne_nil _ _ (hseen hs)
      have hempty : (seen || m == .nil) = true → ms = [] := by
        intro hs
        rw [Bool.or_eq_true, or_iff_right hno, beq_iff_eq] at hs
        exact List.eq_nil_iff_forall_not_mem.mpr fun later hlater => hfirst later hlater hs
      obtain ⟨vs, hvs⟩ := hrest.mpr ⟨hempty, hnils⟩
      exact ⟨v :: vs, Except.guard_eq_ok.mpr ⟨hno, Except.bind_eq_ok.mpr ⟨v, hv,
        Except.bind_eq_ok.mpr ⟨vs, hvs, rfl⟩⟩⟩⟩

theorem encodeBinaryMatch_ok {m : BinaryMatch} (h : m.matchType ≠ .any) :
    ∃ v, encodeBinaryMatch m = .ok v := by
  obtain ⟨kind, pattern⟩ := m
  cases kind with
  | any => exact absurd rfl h
  | exact | pre | suf => exact ⟨_, rfl⟩

/-- Without wildcards, a scope is written if it has an action and no match behind a `nil`. -/
theorem encodeScope_ok {scope : MoqtScope}
    (hnames : ∀ m ∈ scope.namespaceMatches, ∃ v, encodeNamespaceMatch m = .ok v)
    (htrack : ∀ m ∈ scope.trackMatch, m.matchType ≠ .any) :
    (∃ v, encodeScope scope = .ok v) ↔
      scope.actions ≠ [] ∧ scope.namespaceMatches.Pairwise fun m _ => m ≠ .nil := by
  have hns : (∃ ns, scopeNamespaces scope = .ok ns) ↔
      scope.namespaceMatches.Pairwise fun m _ => m ≠ .nil := by
    have hmatches := @encodeNamespaceMatches_ok _ hnames false
    rw [and_iff_right (by simp)] at hmatches
    rw [← hmatches]
    unfold scopeNamespaces
    cases scope.namespaceMatches with
    | nil => simp [encodeNamespaceMatches]
    | cons m ms =>
      constructor
      · rintro ⟨ns, h⟩
        obtain ⟨vs, hvs, -⟩ := Except.bind_eq_ok.mp h
        exact ⟨vs, hvs⟩
      · rintro ⟨vs, hvs⟩
        exact ⟨_, Except.bind_eq_ok.mpr ⟨vs, hvs, rfl⟩⟩
  have htr : ∃ track, scopeTrack scope = .ok track := by
    unfold scopeTrack
    cases hm : scope.trackMatch with
    | none => exact ⟨_, rfl⟩
    | some m =>
      have hany := htrack m hm
      obtain ⟨v, hv⟩ := encodeBinaryMatch_ok hany
      exact ⟨_, Except.guard_eq_ok.mpr ⟨hany, Except.bind_eq_ok.mpr ⟨v, hv, rfl⟩⟩⟩
  rw [← hns, encodeScope_eq]
  constructor
  · rintro ⟨v, h⟩
    obtain ⟨hactions, h⟩ := Except.guard_eq_ok.mp h
    obtain ⟨ns, hns, -⟩ := Except.bind_eq_ok.mp h
    exact ⟨fun hno => hactions (List.isEmpty_iff.mpr hno), ns, hns⟩
  · rintro ⟨hactions, ns, hns⟩
    obtain ⟨track, htr⟩ := htr
    exact ⟨_, Except.guard_eq_ok.mpr ⟨fun hno => hactions (List.isEmpty_iff.mp hno),
      Except.bind_eq_ok.mpr ⟨ns, hns, Except.bind_eq_ok.mpr ⟨track, htr, rfl⟩⟩⟩⟩

/-- Nothing behind a `nil`: nothing but `nil`s, of which there is one at most. -/
theorem nothing_behind_nil {ms : List NamespaceMatch} :
    (ms.Pairwise fun m _ => m ≠ .nil) ↔
      (ms.Pairwise fun m later => m = .nil → later = .nil) ∧ ms.count .nil ≤ 1 := by
  induction ms with
  | nil => simp
  | cons m ms ih =>
    rw [List.pairwise_cons, List.pairwise_cons, ih]
    by_cases hm : m = .nil
    · subst hm
      rw [List.count_cons_self]
      constructor
      · rintro ⟨hfirst, hnils, hcount⟩
        obtain rfl : ms = [] :=
          List.eq_nil_iff_forall_not_mem.mpr fun later h => hfirst later h rfl
        exact ⟨⟨fun _ h => absurd h List.not_mem_nil, hnils⟩, by simp⟩
      · rintro ⟨⟨hfirst, hnils⟩, hcount⟩
        have hzero : .nil ∉ ms := List.count_eq_zero.mp (by omega)
        exact ⟨fun later h => absurd (hfirst later h rfl ▸ h) hzero, hnils, by omega⟩
    · rw [List.count_cons_of_ne hm]
      constructor
      · rintro ⟨-, hnils, hcount⟩
        exact ⟨⟨fun _ _ hnil => absurd hnil hm, hnils⟩, hcount⟩
      · rintro ⟨⟨-, hnils⟩, hcount⟩
        exact ⟨fun _ _ => hm, hnils, hcount⟩

theorem ScopeCall.count_nil (calls : List ScopeCall) :
    (calls.flatMap matchers).count .nil = calls.count .namespaceNil := by
  induction calls with
  | nil => rfl
  | cons call calls ih =>
    rw [List.flatMap_cons, List.count_append, ih]
    by_cases hcall : call = .namespaceNil
    · subst hcall
      rw [List.count_cons_self, Nat.add_comm]
      rfl
    · rw [List.count_cons_of_ne hcall,
        List.count_eq_zero.mpr fun h => hcall (nil_mem_matchers.mp h), Nat.zero_add]

/-- **Scopes made by the builder.** For every chain of calls: the relay finds the scope to cover
a request exactly if the calls ask for it; some request is covered exactly if the chain is
satisfiable; and, within the limit on matches, the scope is written and read back exactly if it
covers some request and at most one call was a `namespace_nil`.

The builder never fails, so what its calls come to shows only at the relay. Here it is told from the
calls. -/
theorem builtScopes_exact (calls : List ScopeCall) :
    (∀ (H : Host) (ctx : RelayRequestContext H),
      MoqtValidator.scopeMatches (MoqtScopeBuilder.ofCalls calls) ctx = true ↔
        Asked calls ctx.action ctx.namespaces ctx.track) ∧
    ((∃ action namespaces track, Asked calls action namespaces track) ↔ Satisfiable calls) ∧
    ∀ limits : CwtLimits, (calls.flatMap ScopeCall.elements).length ≤
        limits.maxNamespaceMatchesPerScope →
      ((∃ v, encodeScope (MoqtScopeBuilder.ofCalls calls) = .ok v ∧
          decodeScope limits v = .ok (MoqtScopeBuilder.ofCalls calls)) ↔
        Satisfiable calls ∧ calls.count .namespaceNil ≤ 1) := by
  have hnames : (MoqtScopeBuilder.ofCalls calls).namespaceMatches =
      calls.flatMap ScopeCall.matchers := by rw [MoqtScopeBuilder.ofCalls_eq]
  refine ⟨fun H ctx => MoqtValidator.scopeMatches_iff.trans grants_iff_asked, ?_, ?_⟩
  · simp only [← grants_iff_asked, MoqtScopeBuilder.exists_grants_iff]
  · intro limits hlimit
    rw [ScopeCall.flatMap_elements, List.length_map, ← hnames] at hlimit
    have hwritten := @encodeScope_ok (MoqtScopeBuilder.ofCalls calls)
      (fun m hm => by
        rw [hnames] at hm
        obtain ⟨call, -, hm⟩ := List.mem_flatMap.mp hm
        obtain ⟨_, rfl⟩ | ⟨_, -, rfl⟩ | ⟨_, -, rfl⟩ | ⟨-, rfl⟩ := ScopeCall.eq_of_mem_matchers hm
        all_goals exact ⟨_, rfl⟩)
      (fun m hm => (MoqtScopeBuilder.ofCalls_track hm).1)
    have hactions : (MoqtScopeBuilder.ofCalls calls).actions ≠ [] ↔
        ∃ call ∈ calls, call.covers ≠ [] := by
      rw [MoqtScopeBuilder.ofCalls_eq, ScopeCall.covers_flatMap]
    rw [hactions, hnames, nothing_behind_nil, ScopeCall.matchers_nils,
      ScopeCall.count_nil] at hwritten
    constructor
    · rintro ⟨v, hv, hread⟩
      obtain ⟨haction, hnils, hcount⟩ := hwritten.mp ⟨v, hv⟩
      obtain ⟨-, hselective⟩ := (decodeScope_encodeScope hv hlimit).mp hread
      obtain ⟨hpre, hsuf⟩ := ScopeCall.matchers_affix.mp (hnames ▸ hselective.namespaces)
      exact ⟨⟨haction, hpre, hsuf, hnils⟩, hcount⟩
    · rintro ⟨h, hcount⟩
      obtain ⟨v, hv⟩ := hwritten.mpr ⟨h.action, h.nils, hcount⟩
      refine ⟨v, hv, (decodeScope_encodeScope hv hlimit).mpr ⟨rfl, ?_, ?_⟩⟩
      · rw [hnames]
        exact ScopeCall.matchers_affix.mpr ⟨h.prefixes, h.suffixes⟩
      · exact fun m hm => (MoqtScopeBuilder.ofCalls_track hm).2

end Cat
