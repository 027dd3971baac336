import SecLang.Go
import Mathlib.Data.List.Nodup

/-!
# The names view of a named collection

`NamedCollectionNames` lists the keys of a collection in place of its values: each of its finds
returns match records whose key and value are both the key of an entry, as it was added, so
that a rule can match against the names of a variable (spec §4.2).  It reads `Map.data`, a Go
map from the map key to the entries stored under it, with `range`, whose order Go leaves open
and changes from one loop to the next.  The model gives every loop its order as an argument, a
list of the pairs of the map, and a result is stated for every order the `range` may take
(`MapData.Visit`).

`FindRegex`, `FindString` and `FindAll` are one loop that differs only in the test on the map
key; that loop is `namesWhere`, and each of the three is it applied to its own test.

## Main statements

* `mem_namesWhere`: the records of the view are the entries of the pairs the test admits, with
  the entry's key as key and as value, and the view's variable;
* `namesWhere_perm`: in two orders of the `range`, `FindRegex` and `FindAll` give the same
  records up to their order;
* `findString_visit`: `FindString` gives the same records, in the same order, whatever the order
  of the `range`, since the map holds a key once;
* `string_eq`, `string_visit`: `String` writes the name, `": "`, then the keys `FindAll` lists,
  a comma between two.
-/

namespace SecLang

namespace Collections

variable {V : Type}

/-- An entry of `Map.data`: the key as it was added, and the value. -/
structure KeyValue where
  key : List UInt8
  value : List UInt8
  deriving DecidableEq, Repr

/-- `corazarules.MatchData` as the names view fills it: the variable, the key and the value. -/
structure MatchData (V : Type) where
  var : V
  key : List UInt8
  value : List UInt8
  deriving DecidableEq, Repr

/-- `Map.data`: the pairs of a Go map from a map key to the entries stored under it.  A map
holds a key once. -/
structure MapData where
  pairs : List (List UInt8 × List KeyValue)
  nodup : (pairs.map Prod.fst).Nodup

/-- An order one `range` over the map may visit its pairs in: any permutation of them. -/
def MapData.Visit (m : MapData) (order : List (List UInt8 × List KeyValue)) : Prop :=
  order.Perm m.pairs

instance (m : MapData) (order : List (List UInt8 × List KeyValue)) : Decidable (m.Visit order) :=
  inferInstanceAs (Decidable (order.Perm m.pairs))

/-- `NamedCollection`: a collection whose `Map` the names view reads. -/
structure NamedCollection where
  map : MapData

/-- `NamedCollection.Len`: the number of keys of the map. -/
def NamedCollection.len (c : NamedCollection) : Nat := c.map.pairs.length

/-- `NamedCollection.Data`: the map from each key to the values of its entries. -/
def NamedCollection.data (c : NamedCollection) : List (List UInt8 × List (List UInt8)) :=
  c.map.pairs.map fun p => (p.1, p.2.map KeyValue.value)

/-- `NamedCollectionNames`: the variable the view reports and the collection it lists. -/
structure NamedCollectionNames (V : Type) where
  var : V
  collection : NamedCollection

/-- `NamedCollection.Names`: the names view of a collection, for the variable `rv`. -/
def NamedCollection.names (c : NamedCollection) (rv : V) : NamedCollectionNames V := ⟨rv, c⟩

/-- The loop of `FindRegex`, `FindString` and `FindAll`: for each pair whose map key `keep`
admits, in the order of the `range`, one record per entry, with the entry's key as key and as
value. -/
def namesWhere (var : V) (keep : List UInt8 → Bool)
    (order : List (List UInt8 × List KeyValue)) : List (MatchData V) :=
  order.flatMap fun p => if keep p.1 then p.2.map fun d => ⟨var, d.key, d.key⟩ else []

namespace NamedCollectionNames

/-- `FindRegex`: the pairs whose map key the pattern matches, `key.MatchString(k)`. -/
def findRegex (c : NamedCollectionNames V) (matchString : List UInt8 → Bool)
    (order : List (List UInt8 × List KeyValue)) : List (MatchData V) :=
  namesWhere c.var matchString order

/-- `FindString`: the pair whose map key is `key`. -/
def findString (c : NamedCollectionNames V) (key : List UInt8)
    (order : List (List UInt8 × List KeyValue)) : List (MatchData V) :=
  namesWhere c.var (fun k => decide (k = key)) order

/-- `FindAll`: every pair. -/
def findAll (c : NamedCollectionNames V) (order : List (List UInt8 × List KeyValue)) :
    List (MatchData V) :=
  namesWhere c.var (fun _ => true) order

/-- One iteration of the inner loop of `String` on `(firstOccurrence, res)`: a comma unless this
is the first key, then the key. -/
def writeKey (st : Bool × List UInt8) (d : KeyValue) : Bool × List UInt8 :=
  (false, st.2 ++ (if st.1 then [] else [','.toUInt8]) ++ d.key)

/-- `String`: the name of the variable (`name` is `Name()` of the variables package), `": "`,
then the key of every entry, a comma between two. -/
def string (name : V → List UInt8) (c : NamedCollectionNames V)
    (order : List (List UInt8 × List KeyValue)) : List UInt8 :=
  (order.foldl (fun st p => p.2.foldl writeKey st) (true, name c.var ++ bytes ": ")).2

end NamedCollectionNames

/-! ## The records of the view -/

/-- **The records of the names view** are the entries of the pairs the test admits, each with
the view's variable and the entry's key as both key and value. -/
theorem mem_namesWhere {var : V} {keep : List UInt8 → Bool}
    {order : List (List UInt8 × List KeyValue)} {m : MatchData V} :
    m ∈ namesWhere var keep order ↔
      ∃ p ∈ order, keep p.1 = true ∧ ∃ d ∈ p.2, m = ⟨var, d.key, d.key⟩ := by
  simp only [namesWhere, List.mem_flatMap]
  constructor
  · rintro ⟨p, hp, hm⟩
    split_ifs at hm with hk
    · obtain ⟨d, hd, rfl⟩ := List.mem_map.mp hm
      exact ⟨p, hp, hk, d, hd, rfl⟩
    · cases hm
  · rintro ⟨p, hp, hk, d, hd, rfl⟩
    exact ⟨p, hp, by rw [if_pos hk]; exact List.mem_map_of_mem _ hd⟩

/-- **The order of the `range` only reorders the records.** -/
theorem namesWhere_perm (var : V) (keep : List UInt8 → Bool)
    {order order' : List (List UInt8 × List KeyValue)} (h : order.Perm order') :
    (namesWhere var keep order).Perm (namesWhere var keep order') :=
  h.flatMap_right _

theorem namesWhere_eq_filter (var : V) (keep : List UInt8 → Bool)
    (order : List (List UInt8 × List KeyValue)) :
    namesWhere var keep order =
      (order.filter fun p => keep p.1).flatMap fun p => p.2.map fun d => ⟨var, d.key, d.key⟩ := by
  induction order with
  | nil => rfl
  | cons p order ih =>
    by_cases hk : keep p.1 <;> simp [namesWhere, List.filter_cons, hk, ← ih]

/-- Two orders of the pairs of a map have the same pairs under a key: there is at most one. -/
theorem filter_key_eq_of_visit {m : MapData} {order : List (List UInt8 × List KeyValue)}
    (h : m.Visit order) (key : List UInt8) :
    order.filter (fun p => decide (p.1 = key)) = m.pairs.filter (fun p => decide (p.1 = key)) := by
  refine @List.Perm.eq_of_sorted _ (fun _ _ => True) _ _ ?_ (List.pairwise_of_forall fun _ _ => ⟨⟩)
    (List.pairwise_of_forall fun _ _ => ⟨⟩) (h.filter _)
  intro a b ha hb _ _
  simp only [List.mem_filter, decide_eq_true_eq] at ha hb
  exact List.inj_on_of_nodup_map m.nodup (h.subset ha.1) hb.1 (ha.2.trans hb.2.symm)

namespace NamedCollectionNames

/-- **`FindString` does not depend on the order of the `range`**: the map holds the key once,
so the records are those of its entries, in their order. -/
theorem findString_visit (c : NamedCollectionNames V) (key : List UInt8)
    {order : List (List UInt8 × List KeyValue)} (h : c.collection.map.Visit order) :
    c.findString key order = c.findString key c.collection.map.pairs := by
  simp only [findString, namesWhere_eq_filter, filter_key_eq_of_visit h]

/-- The names view, for variable `1`, of a map of two keys, `args` with one entry and `user`
with two. -/
def twoKeys : NamedCollectionNames Nat :=
  ⟨1, ⟨⟨[(bytes "args", [⟨bytes "Args", bytes "1"⟩]),
    (bytes "user", [⟨bytes "User", bytes "2"⟩, ⟨bytes "USER", bytes "3"⟩])], by decide⟩⟩⟩

theorem findString_visit_twoKeys :
    twoKeys.collection.map.Visit twoKeys.collection.map.pairs.reverse ∧
      twoKeys.findString (bytes "user") twoKeys.collection.map.pairs.reverse =
        twoKeys.findString (bytes "user") twoKeys.collection.map.pairs :=
  ⟨by decide, findString_visit twoKeys (bytes "user") (by decide)⟩

/-! ## The text of `String` -/

/-- The keys, a comma between two. -/
def commaJoin : List (List UInt8) → List UInt8
  | [] => []
  | k :: ks => k ++ ks.flatMap (','.toUInt8 :: ·)

theorem foldl_writeKey_false (ds : List KeyValue) (res : List UInt8) :
    (ds.foldl writeKey (false, res)).2 = res ++ ds.flatMap (','.toUInt8 :: ·.key) := by
  induction ds generalizing res with
  | nil => simp
  | cons d ds ih => simp [writeKey, ih]

theorem foldl_writeKey (ds : List KeyValue) (res : List UInt8) :
    (ds.foldl writeKey (true, res)).2 = res ++ commaJoin (ds.map KeyValue.key) := by
  cases ds with
  | nil => simp [commaJoin]
  | cons d ds => simp [writeKey, foldl_writeKey_false, commaJoin, List.flatMap_map]

/-- The two loops of `String` write the keys of the entries of every pair in turn. -/
theorem foldl_pairs (order : List (List UInt8 × List KeyValue)) (st : Bool × List UInt8) :
    order.foldl (fun st p => p.2.foldl writeKey st) st =
      (order.flatMap Prod.snd).foldl writeKey st := by
  induction order generalizing st with
  | nil => rfl
  | cons p order ih => simp [ih]

/-- **`String` writes the keys `FindAll` lists**, in the same order of the `range`: the name,
`": "`, then the values of the records, a comma between two. -/
theorem string_eq (name : V → List UInt8) (c : NamedCollectionNames V)
    (order : List (List UInt8 × List KeyValue)) :
    c.string name order =
      name c.var ++ bytes ": " ++ commaJoin ((c.findAll order).map MatchData.value) := by
  have hvalues :
      (c.findAll order).map MatchData.value = (order.flatMap Prod.snd).map KeyValue.key := by
    simp [findAll, namesWhere, List.map_flatMap, Function.comp_def]
  rw [string, foldl_pairs, foldl_writeKey, hvalues]

/-- **Whatever orders the two loops take**, `String` writes after the name the keys that
`FindAll` lists, in some order. -/
theorem string_visit (name : V → List UInt8) (c : NamedCollectionNames V)
    {order order' : List (List UInt8 × List KeyValue)} (h : c.collection.map.Visit order)
    (h' : c.collection.map.Visit order') :
    ∃ keys, keys.Perm ((c.findAll order').map MatchData.value) ∧
      c.string name order = name c.var ++ bytes ": " ++ commaJoin keys :=
  ⟨_, ((namesWhere_perm _ _ (h.trans h'.symm)).map _), string_eq name c order⟩

theorem string_visit_twoKeys :
    twoKeys.collection.map.Visit twoKeys.collection.map.pairs ∧
      twoKeys.collection.map.Visit twoKeys.collection.map.pairs.reverse ∧
      ∃ keys, keys.Perm ((twoKeys.findAll twoKeys.collection.map.pairs.reverse).map
          MatchData.value) ∧
        twoKeys.string (fun _ => bytes "ARGS_NAMES") twoKeys.collection.map.pairs =
          bytes "ARGS_NAMES" ++ bytes ": " ++ commaJoin keys :=
  ⟨by decide, by decide, string_visit _ twoKeys (by decide) (by decide)⟩

end NamedCollectionNames

end Collections

end SecLang
