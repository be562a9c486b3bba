import DistGraph.Proofs.Adjacency.Segment
import DistGraph.Proofs.Everything
import Mathlib.Data.List.Chain

/-! The pieces that a run of vertices is cut into tile it, and part its records alike. -/

namespace DistGraph

variable {transposed : Bool}

/-- Pieces that follow one another from a first vertex to a stop, with the records of each. -/
inductive Tiling (transposed : Bool) :
    (first stop : VertexId) → List EdgeRecord → List (Span × List EdgeRecord) → Prop where
  /-- One piece takes all. -/
  | last {first stop : VertexId} {records : List EdgeRecord} (ordered : first ≤ stop)
      (inside : ∀ record ∈ records,
        (⟨first, stop⟩ : Span).contains (record.major transposed) = true) :
      Tiling transposed first stop records [(⟨first, stop⟩, records)]
  /-- A piece that holds some vertices comes before the pieces of the others. -/
  | cons {first middle stop : VertexId} {held records : List EdgeRecord}
      {pieces : List (Span × List EdgeRecord)} (ordered : first < middle)
      (inside : ∀ record ∈ held,
        (⟨first, middle⟩ : Span).contains (record.major transposed) = true)
      (rest : Tiling transposed middle stop records pieces) :
      Tiling transposed first stop (held ++ records) ((⟨first, middle⟩, held) :: pieces)

namespace Tiling

variable {first stop : VertexId} {records : List EdgeRecord} {pieces : List (Span × List EdgeRecord)}

/-- What is tiled ends no earlier than it starts. -/
theorem ordered (tiling : Tiling transposed first stop records pieces) : first ≤ stop := by
  induction tiling with
  | last ordered _ => exact ordered
  | cons ordered _ _ ih => exact UInt64.le_trans (UInt64.le_of_lt ordered) ih

/-- No piece starts before the first vertex. -/
theorem start_le (tiling : Tiling transposed first stop records pieces) :
    ∀ piece ∈ pieces, first ≤ piece.1.start := by
  -- By induction on the tiling: later pieces start after the first one.
  induction tiling with
  | last => simp
  | cons ordered _ _ ih =>
    intro piece member
    rcases List.mem_cons.mp member with rfl | later
    · exact UInt64.le_refl _
    · exact UInt64.le_trans (UInt64.le_of_lt ordered) (ih piece later)

/-- All records belong to vertices between the first one and the stop. -/
theorem contains (tiling : Tiling transposed first stop records pieces) :
    ∀ record ∈ records, (⟨first, stop⟩ : Span).contains (record.major transposed) = true := by
  -- By induction on the tiling, which widens the span of the later pieces to the left.
  induction tiling with
  | last _ inside => exact inside
  | cons ordered inside rest ih =>
    intro record member
    have upper := rest.ordered
    rw [UInt64.lt_iff_toNat_lt] at ordered
    rw [UInt64.le_iff_toNat_le] at upper
    rcases List.mem_append.mp member with own | later
    · have := Span.contains_iff.mp (inside record own)
      exact Span.contains_iff.mpr (by dsimp only at *; omega)
    · have := Span.contains_iff.mp (ih record later)
      exact Span.contains_iff.mpr (by dsimp only at *; omega)

/-- Every piece holds records of its own vertices only. -/
theorem inside (tiling : Tiling transposed first stop records pieces) :
    ∀ piece ∈ pieces, ∀ record ∈ piece.2, piece.1.contains (record.major transposed) = true := by
  -- By induction on the tiling, one piece at a time.
  induction tiling with
  | last _ inside => simpa using inside
  | cons _ inside _ ih =>
    intro piece member
    rcases List.mem_cons.mp member with rfl | later
    · exact inside
    · exact ih piece later

/-- The pieces hold parts of the records. -/
theorem sublist (tiling : Tiling transposed first stop records pieces) :
    ∀ piece ∈ pieces, piece.2.Sublist records := by
  -- By induction on the tiling: its records are those of the first piece, then all later ones.
  induction tiling with
  | last => simp
  | cons _ _ _ ih =>
    intro piece member
    rcases List.mem_cons.mp member with rfl | later
    · exact List.sublist_append_left _ _
    · exact (ih piece later).trans (List.sublist_append_right _ _)

/-- All pieces together hold all records. -/
theorem sum_lengths (tiling : Tiling transposed first stop records pieces) :
    (pieces.map fun piece => piece.2.length).sum = records.length := by
  induction tiling with
  | last => simp
  | cons _ _ _ ih => rw [List.map_cons, List.sum_cons, ih, List.length_append]

/-- The first piece starts with the first vertex. -/
theorem head_start (tiling : Tiling transposed first stop records pieces) :
    (pieces.head?.map fun piece => piece.1.start) = some first := by
  cases tiling <;> rfl

/-- The last piece ends with the stop. -/
theorem last_stop (tiling : Tiling transposed first stop records pieces) :
    (pieces.getLast?.map fun piece => piece.1.stop) = some stop := by
  induction tiling with
  | last => rfl
  | cons _ _ rest ih =>
    -- There is a piece after the first one, with which the others begin.
    cases rest <;> exact ih

/-- Every piece starts where the one before it ends. -/
theorem adjacent (tiling : Tiling transposed first stop records pieces) :
    pieces.IsChain fun left right => left.1.stop = right.1.start := by
  -- By induction on the tiling: what follows a piece starts where it stops.
  induction tiling with
  | last => exact .singleton _
  | cons _ _ rest ih =>
    have start := rest.head_start
    refine List.isChain_cons.mpr ⟨fun next isHead => ?_, ih⟩
    rw [Option.mem_def.mp isHead] at start
    exact (Option.some.inj start).symm

/-- No piece ends before it starts. -/
theorem start_le_stop (tiling : Tiling transposed first stop records pieces) :
    ∀ piece ∈ pieces, piece.1.start ≤ piece.1.stop := by
  -- By induction on the tiling: only the last piece may be empty.
  induction tiling with
  | last ordered _ => simpa using ordered
  | cons ordered _ _ ih =>
    intro piece member
    rcases List.mem_cons.mp member with rfl | later
    · exact UInt64.le_of_lt ordered
    · exact ih piece later

/-- No piece ends after the stop. -/
theorem stop_le (tiling : Tiling transposed first stop records pieces) :
    ∀ piece ∈ pieces, piece.1.stop ≤ stop := by
  -- By induction on the tiling: a piece stops where the rest of it starts.
  induction tiling with
  | last => simp
  | cons _ _ rest ih =>
    intro piece member
    rcases List.mem_cons.mp member with rfl | later
    · exact rest.ordered
    · exact ih piece later

/-- Pieces end before later ones start. -/
theorem apart (tiling : Tiling transposed first stop records pieces) :
    pieces.Pairwise fun left right => left.1.stop ≤ right.1.start := by
  induction tiling with
  | last => exact List.pairwise_singleton _ _
  | cons _ _ rest ih => exact List.pairwise_cons.mpr ⟨rest.start_le, ih⟩

/-- Every piece holds all records of its own vertices. -/
theorem held_eq (tiling : Tiling transposed first stop records pieces) :
    ∀ piece ∈ pieces, piece.2 = records.filter fun record =>
      piece.1.contains (record.major transposed) := by
  -- By induction on the tiling, where only the first piece can hold any of its own records.
  induction tiling with
  | last _ inside =>
    intro piece member
    rw [List.mem_singleton.mp member]
    exact (List.filter_eq_self.mpr inside).symm
  | @cons first middle stop held records pieces ordered inside rest ih =>
    intro piece member
    rw [List.filter_append]
    -- No record of the first piece lies in a later one, and the other way around.
    rcases List.mem_cons.mp member with rfl | later
    · have none_later : records.filter (fun record =>
          (⟨first, middle⟩ : Span).contains (record.major transposed)) = [] := by
        rw [List.filter_eq_nil_iff]
        intro record other own
        have := Span.contains_iff.mp own
        have := Span.contains_iff.mp (rest.contains record other)
        dsimp only at *
        omega
      rw [List.filter_eq_self.mpr inside, none_later, List.append_nil]
    · have none_held : held.filter (fun record => piece.1.contains (record.major transposed)) = [] := by
        rw [List.filter_eq_nil_iff]
        intro record other own
        have := Span.contains_iff.mp own
        have := Span.contains_iff.mp (inside record other)
        have := UInt64.le_iff_toNat_le.mp (rest.start_le piece later)
        dsimp only at *
        omega
      rw [none_held, List.nil_append]
      exact ih piece later

/-- Every vertex lies in one piece, which holds all records of the vertex. -/
theorem exists_piece (tiling : Tiling transposed first stop records pieces) {vertex : VertexId}
    (owned : (⟨first, stop⟩ : Span).contains vertex = true) :
    ∃ front piece back, pieces = front ++ piece :: back ∧ piece.1.contains vertex = true ∧
      (∀ earlier ∈ front, earlier.1.start ≤ vertex) ∧ (∀ later ∈ back, vertex < later.1.start) ∧
      piece.2.filter (fun record => record.major transposed = vertex) =
        records.filter fun record => record.major transposed = vertex := by
  -- By induction on the tiling: the vertex lies in the first piece or in what is left.
  induction tiling with
  | @last first stop records _ inside =>
    exact ⟨[], _, [], rfl, owned, by simp, by simp, rfl⟩
  | @cons first middle stop held records pieces ordered inside rest ih =>
    obtain ⟨lower, upper⟩ := Span.contains_iff.mp owned
    rw [UInt64.lt_iff_toNat_lt] at ordered
    rw [List.filter_append]
    -- A vertex of the first piece has no records in the later ones, and one of these has none in it.
    rcases Nat.lt_or_ge vertex.toNat middle.toNat with before | after
    · have none_later : records.filter (fun record => record.major transposed = vertex) = [] := by
        rw [List.filter_eq_nil_iff]
        intro record member same
        have := (Span.contains_iff.mp (rest.contains record member)).1
        rw [of_decide_eq_true same] at this
        dsimp only at this
        omega
      refine ⟨[], _, pieces, rfl, Span.contains_iff.mpr ⟨lower, before⟩, by simp, ?_, ?_⟩
      · intro later member
        have := UInt64.le_iff_toNat_le.mp (rest.start_le later member)
        rw [UInt64.lt_iff_toNat_lt]
        omega
      · rw [none_later, List.append_nil]
    · have none_held : held.filter (fun record => record.major transposed = vertex) = [] := by
        rw [List.filter_eq_nil_iff]
        intro record member same
        have := (Span.contains_iff.mp (inside record member)).2
        rw [of_decide_eq_true same] at this
        dsimp only at this
        omega
      obtain ⟨front, piece, back, split, found, earlier, later, same⟩ :=
        ih (Span.contains_iff.mpr ⟨after, upper⟩)
      refine ⟨_ :: front, piece, back, by rw [split]; rfl, found, ?_, later, ?_⟩
      · intro other member
        rcases List.mem_cons.mp member with rfl | member
        · exact UInt64.le_iff_toNat_le.mpr lower
        · exact earlier other member
      · rw [none_held, List.nil_append, same]

end Tiling

/-- Counting from the start of a span to one of its ids stays within a word. -/
theorem Span.toNat_start_add (span : Span) {index : Nat} (inside : index < span.length) :
    (span.start + UInt64.ofNat index).toNat = span.start.toNat + index := by
  unfold Span.length at inside
  have := span.stop.toNat_lt
  -- The count stays below the end of the span, which is a word itself.
  have number : (UInt64.ofNat index).toNat = index :=
    UInt64.toNat_ofNat_of_lt' (by simp only [UInt64.size]; omega)
  rw [UInt64.toNat_add, number, Nat.mod_eq_of_lt (by omega)]

/-- The ids of a span as numbers. -/
theorem Span.map_toList (span : Span) :
    span.toList.map UInt64.toNat = List.range' span.start.toNat span.length := by
  -- Both lists count up from the start, the one in words and the other in numbers.
  unfold Span.toList
  rw [List.map_map, List.range'_eq_map_range]
  apply List.map_congr_left
  intro index member
  exact span.toNat_start_add (List.mem_range.mp member)

/-- A span lists exactly the ids that it contains. -/
@[simp] theorem Span.mem_toList {span : Span} {vertex : VertexId} :
    vertex ∈ span.toList ↔ span.contains vertex = true := by
  -- As numbers the ids of a span are a range, where membership is a pair of bounds.
  have number : vertex ∈ span.toList ↔ vertex.toNat ∈ span.toList.map UInt64.toNat := by
    rw [List.mem_map]
    constructor
    · exact fun member => ⟨vertex, member, rfl⟩
    · intro ⟨other, member, same⟩
      exact UInt64.toNat_inj.mp same ▸ member
  rw [number, Span.map_toList, List.mem_range'_1, Span.contains_iff]
  unfold Span.length
  omega

/-- A span lists its ids from low to high. -/
theorem Span.toList_ascending (span : Span) : span.toList.Pairwise (· < ·) := by
  -- Words are compared as the numbers that they stand for.
  have numbers : (span.toList.map UInt64.toNat).Pairwise (· < ·) := by
    rw [Span.map_toList]
    exact List.pairwise_lt_range'
  exact (List.pairwise_map.mp numbers).imp UInt64.lt_iff_toNat_lt.mpr

/-- Sorted records of the vertices of a span are put back in order by gathering them vertex by vertex. -/
theorem Span.flatMap_filter_major {span : Span} {records : List EdgeRecord}
    (sorted : records.Pairwise fun left right =>
      left.majorNumber transposed ≤ right.majorNumber transposed)
    (inside : ∀ record ∈ records, span.contains (record.major transposed) = true) :
    (span.toList.flatMap fun vertex =>
      records.filter fun record => record.major transposed = vertex) = records := by
  have ascending : (span.toList.map UInt64.toNat).Pairwise (· < ·) :=
    List.pairwise_map.mpr (span.toList_ascending.imp UInt64.lt_iff_toNat_lt.mp)
  have listed : ∀ record ∈ records,
      record.majorNumber transposed ∈ span.toList.map UInt64.toNat :=
    fun record member => List.mem_map_of_mem (Span.mem_toList.mpr (inside record member))
  -- Gathering by an ascending list of keys puts any list sorted by the key back together.
  have gathered := flatMap_filter_key ascending sorted listed
  rw [List.flatMap_map] at gathered
  refine Eq.trans (List.flatMap_congr fun vertex _ => ?_) gathered
  apply List.filter_congr
  intro record _
  exact decide_eq_decide.mpr UInt64.toNat_inj.symm

section Runs

variable {size : Nat} (partition : Partition size)

/-- The runs of all ranks follow each other. -/
theorem Partition.everything_toList_ascending :
    (everything fun rank => (partition.spanOf rank).toList).Pairwise (· < ·) := by
  -- Within a run the ids ascend, and the run of a lower rank ends before that of a higher one starts.
  refine pairwise_everything (fun rank => Span.toList_ascending _) ?_
  intro lower upper below left leftHeld right rightHeld
  rw [Span.mem_toList, Span.contains_iff] at leftHeld rightHeld
  have apart := partition.spanOf_stop_le_start below
  rw [UInt64.lt_iff_toNat_lt]
  omega

/-- The runs of all ranks have all ids. -/
theorem Partition.mem_everything_toList {vertex : VertexId} :
    (vertex ∈ everything fun rank => (partition.spanOf rank).toList) ↔ vertex < partition.vertexCount := by
  simp only [mem_everything, Span.mem_toList, ← Partition.owner?_eq_some_iff,
    ← Partition.owner?_isSome_iff, Option.isSome_iff_exists]

end Runs

namespace Segment

/-- Whether records are parted into those of a vertex and those of later vertices. -/
structure Parted (transposed : Bool) (vertex : VertexId) (vertices : List VertexId)
    (own rest : List EdgeRecord) : Prop where
  /-- Records of the vertex come first. -/
  own : ∀ record ∈ own, record.major transposed = vertex
  /-- What is left is sorted. -/
  sorted : rest.Pairwise fun left right => left.majorNumber transposed ≤ right.majorNumber transposed
  /-- What is left belongs to later vertices. -/
  listed : ∀ record ∈ rest, record.major transposed ∈ vertices

/-- The records of the first vertex are taken off the front of all records. -/
theorem exists_parted {records : List EdgeRecord} {vertex : VertexId} {vertices : List VertexId}
    (below : ∀ other ∈ vertices, vertex < other)
    (sorted : records.Pairwise fun left right =>
      left.majorNumber transposed ≤ right.majorNumber transposed)
    (listed : ∀ record ∈ records, record.major transposed ∈ vertex :: vertices) :
    ∃ own rest, records = own ++ rest ∧
      (records.takeWhile fun record => record.major transposed == vertex) = own ∧
      records.drop own.length = rest ∧ Parted transposed vertex vertices own rest := by
  have above : ∀ record ∈ records, vertex.toNat ≤ record.majorNumber transposed := by
    intro record member
    rcases List.mem_cons.mp (listed record member) with same | deeper
    · exact Nat.le_of_eq (same ▸ rfl)
    · exact Nat.le_of_lt (UInt64.lt_iff_toNat_lt.mp (below _ deeper))
  -- Records are compared by their vertices, and ascend by the numbers of these.
  have test : (fun record : EdgeRecord => record.major transposed == vertex) =
      fun record => decide (record.majorNumber transposed = vertex.toNat) := by
    funext record
    rw [beq_eq_decide]
    exact decide_eq_decide.mpr UInt64.toNat_inj.symm
  obtain ⟨taken, dropped⟩ := takeWhile_least sorted above
  -- Taking while the vertex is the same takes all of it, as no later one comes before.
  rw [← test] at taken dropped
  have whole := List.takeWhile_append_dropWhile
    (p := fun record : EdgeRecord => record.major transposed == vertex) (l := records)
  refine ⟨_, _, whole.symm, rfl, ?_, ?_, ?_, ?_⟩
  · have back := congrArg (List.drop (records.takeWhile fun record =>
      record.major transposed == vertex).length) whole
    rw [List.drop_left] at back
    exact back.symm
  · intro record member
    rw [taken] at member
    exact eq_of_beq (List.mem_filter.mp member).2
  · rw [dropped]
    exact sorted.filter _
  · intro record member
    rw [dropped] at member
    obtain ⟨held, other⟩ := List.mem_filter.mp member
    rcases List.mem_cons.mp (listed record held) with same | deeper
    · exact absurd (congrArg UInt64.toNat same) (of_decide_eq_true other)
    · exact deeper

/-- Cutting before vertices makes pieces of what is held and what follows. -/
theorem cut_tiling (budget : Nat) {stop first : VertexId} (held : List EdgeRecord)
    {records : List EdgeRecord} {vertices : List VertexId} (ordered : first ≤ stop)
    (ascending : vertices.Pairwise (· < ·))
    (later : ∀ vertex ∈ vertices, first ≤ vertex ∧ vertex < stop)
    (holds : ∀ record ∈ held, (⟨first, stop⟩ : Span).contains (record.major transposed) = true ∧
      ∀ vertex ∈ vertices, record.major transposed < vertex)
    (sorted : records.Pairwise fun left right =>
      left.majorNumber transposed ≤ right.majorNumber transposed)
    (listed : ∀ record ∈ records, record.major transposed ∈ vertices) :
    Tiling transposed first stop (held ++ records)
      (cut budget transposed stop first held vertices records) := by
  -- By induction on the vertices that are left, with the piece that is open as it stands.
  induction vertices generalizing first held records with
  | nil =>
    have none_there : records = [] := List.eq_nil_iff_forall_not_mem.mpr (by simpa using listed)
    subst none_there
    rw [cut, List.append_nil]
    exact .last ordered fun record member => (holds record member).1
  | cons vertex vertices ih =>
    obtain ⟨below, ascendingRest⟩ := List.pairwise_cons.mp ascending
    obtain ⟨afterFirst, beforeStop⟩ := later vertex List.mem_cons_self
    -- The records of the vertex come first, and those of later vertices after them.
    obtain ⟨own, rest, whole, taken, left, parted⟩ := exists_parted below sorted listed
    have ownHolds : ∀ lower, lower ≤ vertex → ∀ record ∈ own,
        (⟨lower, stop⟩ : Span).contains (record.major transposed) = true ∧
          ∀ other ∈ vertices, record.major transposed < other := by
      intro lower under record member
      rw [parted.own record member]
      exact ⟨Span.contains_iff.mpr ⟨UInt64.le_iff_toNat_le.mp under, UInt64.lt_iff_toNat_lt.mp beforeStop⟩,
        below⟩
    simp only [cut, taken, left]
    rw [whole]
    split
    · rename_i full
      -- A piece is full, and the next one starts with the vertex.
      have tiled := ih own (UInt64.le_of_lt beforeStop) ascendingRest
        (fun other member => ⟨UInt64.le_of_lt (below other member), (later other (by simp [member])).2⟩)
        (ownHolds vertex (UInt64.le_refl _)) parted.sorted parted.listed
      refine .cons full.1 (fun record member => ?_) tiled
      obtain ⟨within, before⟩ := holds record member
      exact Span.contains_iff.mpr ⟨(Span.contains_iff.mp within).1,
        UInt64.lt_iff_toNat_lt.mp (before vertex List.mem_cons_self)⟩
    · -- The piece that is open takes the records of the vertex in.
      rw [← List.append_assoc]
      refine ih (held ++ own) ordered ascendingRest (fun other member => later other (by simp [member]))
        (fun record member => ?_) parted.sorted parted.listed
      rcases List.mem_append.mp member with old | new
      · obtain ⟨within, before⟩ := holds record old
        exact ⟨within, fun other found => before other (by simp [found])⟩
      · exact ownHolds first afterFirst record new

/-- Pieces of consecutive vertices tile them, whatever the budget. -/
theorem pieces_tiling (budget : Option UInt64) {vertices : Span} {records : List EdgeRecord}
    (ordered : vertices.start ≤ vertices.stop)
    (sorted : records.Pairwise fun left right =>
      left.majorNumber transposed ≤ right.majorNumber transposed)
    (inside : ∀ record ∈ records, vertices.contains (record.major transposed) = true) :
    Tiling transposed vertices.start vertices.stop records
      (pieces budget transposed vertices records) := by
  -- Without a budget the run is one piece.
  cases budget with
  | none => exact .last ordered inside
  | some most =>
    have tiled := cut_tiling (max most.toNat 1) [] ordered vertices.toList_ascending
      (fun vertex member => by
        obtain ⟨lower, upper⟩ := Span.contains_iff.mp (Span.mem_toList.mp member)
        exact ⟨UInt64.le_iff_toNat_le.mpr lower, UInt64.lt_iff_toNat_lt.mpr upper⟩)
      (by simp) sorted fun record member => Span.mem_toList.mpr (inside record member)
    exact tiled

end Segment

end DistGraph
