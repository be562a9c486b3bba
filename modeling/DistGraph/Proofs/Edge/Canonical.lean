import DistGraph.Proofs.Cleanup
import DistGraph.Proofs.Edge.Reverses

/-! Records lose nothing of their edges, and have one form for each edge and place of origin. -/

namespace DistGraph

namespace EdgeRecord

/-- A record in which nothing is set that its edge does not have. -/
structure Canonical (record : EdgeRecord) : Prop where
  /-- There are no bits besides the presence bits. -/
  bits : record.flags &&& ~~~(weightFlag ||| idFlag ||| kindFlag) = 0
  /-- Without its presence bit the weight is zero. -/
  weight : record.has weightFlag = false → record.weight = .zero
  /-- Without its presence bit the id is zero. -/
  id : record.has idFlag = false → record.edgeId = 0
  /-- Without its presence bit the kind is zero. -/
  kind : record.has kindFlag = false → record.edgeKind = 0

/-- Flags without other bits are made of the presence bits that are set. -/
theorem flags_eq_of_bits {flags : UInt8} (bits : flags &&& ~~~(weightFlag ||| idFlag ||| kindFlag) = 0) :
    ((if flags &&& weightFlag != 0 then weightFlag else 0) |||
      (if flags &&& idFlag != 0 then idFlag else 0) |||
      (if flags &&& kindFlag != 0 then kindFlag else 0)) = flags := by
  -- There are only so many words of eight bits.
  have all : ∀ word : BitVec 8,
      (⟨word⟩ : UInt8) &&& ~~~(weightFlag ||| idFlag ||| kindFlag) = 0 →
      ((if (⟨word⟩ : UInt8) &&& weightFlag != 0 then weightFlag else 0) |||
        (if (⟨word⟩ : UInt8) &&& idFlag != 0 then idFlag else 0) |||
        (if (⟨word⟩ : UInt8) &&& kindFlag != 0 then kindFlag else 0)) = ⟨word⟩ := by decide +kernel
  exact all flags.toBitVec bits

/-- A field that is zero without its presence bit is read and written back unchanged. -/
theorem getD_present {α : Type} {present : Bool} {value zero : α}
    (clear : present = false → value = zero) : (if present then some value else none).getD zero = value := by
  cases present with
  | true => rfl
  | false => exact (clear rfl).symm

/-- A value that is given under a condition is there when the condition holds. -/
@[simp] theorem isSome_present {α : Type} (present : Bool) (value : α) :
    (if present then some value else none).isSome = present := by
  cases present <;> rfl

/-- A canonical record is the record of the edge that it stands for. -/
theorem Canonical.ofEdge_toEdge {record : EdgeRecord} (canonical : record.Canonical) :
    ofEdge record.toEdge record.originRank.toNat record.originSeq = record := by
  -- Every field is either present, and kept, or absent, and then zero on both sides.
  have weight : record.weight?.getD .zero = record.weight := getD_present canonical.weight
  have id : record.id?.getD 0 = record.edgeId := getD_present canonical.id
  have kind : record.kind?.getD 0 = record.edgeKind := getD_present canonical.kind
  have flags : (ofEdge record.toEdge record.originRank.toNat record.originSeq).flags = record.flags := by
    simp only [ofEdge, toEdge, weight?, id?, kind?, isSome_present]
    exact flags_eq_of_bits canonical.bits
  calc ofEdge record.toEdge record.originRank.toNat record.originSeq
      = { record with
          weight := record.weight?.getD .zero
          edgeId := record.id?.getD 0
          edgeKind := record.kind?.getD 0
          flags := (ofEdge record.toEdge record.originRank.toNat record.originSeq).flags
          originRank := UInt32.ofNat record.originRank.toNat } := rfl
    _ = record := by rw [weight, id, kind, flags, UInt32.ofNat_toNat]

/-- A field that carries nothing reads as its default. -/
theorem getD_absent {α : Type} {carried : Option α} {zero : α} (absent : carried.isSome = false) :
    carried.getD zero = zero := by
  cases carried with
  | none => rfl
  | some _ => cases absent

/-- The record of an edge is canonical. -/
theorem canonical_ofEdge (edge : Edge) (originRank : Nat) (originSeq : UInt64) :
    (ofEdge edge originRank originSeq).Canonical := by
  -- What the flags tell is what the edge carries, so an absent field has been given its default.
  obtain ⟨hasWeight, hasId, hasKind⟩ := has_flags edge.weight.isSome edge.id.isSome edge.kind.isSome
  refine ⟨?_, fun absent => getD_absent (hasWeight.symm.trans absent),
    fun absent => getD_absent (hasId.symm.trans absent),
    fun absent => getD_absent (hasKind.symm.trans absent)⟩
  simp only [ofEdge]
  cases edge.weight.isSome <;> cases edge.id.isSome <;> cases edge.kind.isSome <;> decide

/-- Canonical records are those that an edge and a place of origin can be made into. -/
theorem canonical_iff {record : EdgeRecord} :
    record.Canonical ↔ ∃ edge originRank originSeq, record = ofEdge edge originRank originSeq := by
  -- A canonical record is made anew of the edge that it stands for.
  constructor
  · exact fun canonical => ⟨_, _, _, canonical.ofEdge_toEdge.symm⟩
  · rintro ⟨edge, originRank, originSeq, rfl⟩
    exact canonical_ofEdge edge originRank originSeq

/-- The presence bit of the weight is set and cleared by itself. -/
theorem weightFlag_flags (weight id kind : Bool) :
    ((if weight then weightFlag else 0) ||| (if id then idFlag else 0) ||| (if kind then kindFlag else 0)) |||
        weightFlag =
      (if true then weightFlag else 0) ||| (if id then idFlag else 0) ||| (if kind then kindFlag else 0) ∧
    ((if weight then weightFlag else 0) ||| (if id then idFlag else 0) ||| (if kind then kindFlag else 0)) &&&
        ~~~weightFlag =
      (if false then weightFlag else 0) ||| (if id then idFlag else 0) ||| (if kind then kindFlag else 0) := by
  cases weight <;> cases id <;> cases kind <;> decide

/-- The record of an edge with another weight is the record of the edge that has that weight. -/
theorem withWeight_ofEdge (edge : Edge) (originRank : Nat) (originSeq : UInt64) (weight : Option Weight) :
    (ofEdge edge originRank originSeq).withWeight weight =
      ofEdge { edge with weight := weight } originRank originSeq := by
  -- Setting and clearing the presence bit gives the flags that the other edge is given.
  obtain ⟨set, cleared⟩ := weightFlag_flags edge.weight.isSome edge.id.isSome edge.kind.isSome
  cases weight with
  | some weight => exact congrArg (fun flags => EdgeRecord.mk edge.src edge.dst weight (edge.id.getD 0)
      (edge.kind.getD 0) flags (UInt32.ofNat originRank) originSeq) set
  | none => exact congrArg (fun flags => EdgeRecord.mk edge.src edge.dst .zero (edge.id.getD 0)
      (edge.kind.getD 0) flags (UInt32.ofNat originRank) originSeq) cleared

/-- A canonical record stays canonical with another weight, or with none. -/
theorem Canonical.withWeight {record : EdgeRecord} (canonical : record.Canonical) (weight : Option Weight) :
    (record.withWeight weight).Canonical := by
  -- A canonical record is made of an edge, so the changed one is made of the changed edge.
  obtain ⟨edge, originRank, originSeq, rfl⟩ := canonical_iff.mp canonical
  exact withWeight_ofEdge edge originRank originSeq weight ▸ canonical_ofEdge _ _ _

/-- Turning a record around changes none of the fields that being canonical is about. -/
theorem Canonical.reversed {record : EdgeRecord} (canonical : record.Canonical) :
    record.reversed.Canonical :=
  ⟨canonical.bits, canonical.weight, canonical.id, canonical.kind⟩

/-- A canonical record that takes in parallel ones stays canonical, whatever those are. -/
theorem Canonical.merge {first : EdgeRecord} (canonical : first.Canonical) (policy : MergePolicy)
    (later : List EdgeRecord) : (policy.merge first later).Canonical := by
  -- Merging changes no field but the weight, and sets it along with its presence bit.
  unfold MergePolicy.merge
  split
  · exact canonical
  · exact canonical.withWeight _

/-- The edge of a record, in the position that is its place of origin as a number. -/
def atOrigin (record : EdgeRecord) : PlacedEdge :=
  -- Attributes count as far as they are present.
  ⟨record.toEdge, record.originNumber⟩

/-- Records that are made of other ones, each with what the same operations make of the edges. -/
inductive Encodes : EdgeRecord → PlacedEdge → Prop where
  /-- An edge is handed in on a rank. -/
  | handedIn (edge : Edge) {rank : Nat} (small : rank < 2 ^ 32) (seq : UInt64) :
    Encodes (.ofEdge edge rank seq) ⟨edge, rank * 2 ^ 64 + seq.toNat⟩
  /-- The weight is replaced or taken away. -/
  | withWeight {record : EdgeRecord} {placed : PlacedEdge} (weight : Option Weight)
    (encoded : Encodes record placed) :
    Encodes (record.withWeight weight) { placed with edge := { placed.edge with weight := weight } }
  /-- The edge is turned around. -/
  | reversed {record : EdgeRecord} {placed : PlacedEdge} (encoded : Encodes record placed) :
    Encodes record.reversed placed.reversed
  /-- A group is merged into one, the first of it taking in the later ones. -/
  | merged (policy : MergePolicy) {first : EdgeRecord × PlacedEdge}
    {later : List (EdgeRecord × PlacedEdge)} (encoded : Encodes first.1 first.2)
    (encodedLater : ∀ pair ∈ later, Encodes pair.1 pair.2) :
    Encodes (policy.merge first.1 (later.map Prod.fst)) (first.2.merge policy (later.map Prod.snd))
  /-- A group that is sorted by its endpoints is closed under reversal. -/
  | closed {group : List (EdgeRecord × PlacedEdge)} (encoded : ∀ pair ∈ group, Encodes pair.1 pair.2)
    (sorted : (group.map Prod.fst).Pairwise EndsBefore) {index : Nat} {record : EdgeRecord}
    {placed : PlacedEdge} (held : (Cleanup.withReverses (group.map Prod.fst))[index]? = some record)
    (told : (Reference.addReverses (group.map Prod.snd))[index]? = some placed) :
    Encodes record placed

/-- An edge that is handed in is kept with its place of origin. -/
theorem atOrigin_ofEdge (edge : Edge) {rank : Nat} (small : rank < 2 ^ 32) (seq : UInt64) :
    (ofEdge edge rank seq).atOrigin = ⟨edge, rank * 2 ^ 64 + seq.toNat⟩ := by
  have own : (UInt32.ofNat rank).toNat = rank := UInt32.toNat_ofNat_of_lt' small
  simp only [atOrigin, toEdge_ofEdge, originNumber]
  simp only [ofEdge, own]

/-- Another weight leaves a record at its place of origin. -/
theorem atOrigin_withWeight (record : EdgeRecord) (weight : Option Weight) :
    (record.withWeight weight).atOrigin =
      { record.atOrigin with edge := { record.atOrigin.edge with weight := weight } } := by
  simp only [atOrigin, toEdge_withWeight, originNumber, originRank_withWeight, originSeq_withWeight]

/-- Parallel records are merged at their places of origin like the edges there. -/
theorem atOrigin_merge (policy : MergePolicy) (first : EdgeRecord) (later : List EdgeRecord) :
    (policy.merge first later).atOrigin = first.atOrigin.merge policy (later.map atOrigin) :=
  placedAt_merge (fun rank seq => rank.toNat * 2 ^ 64 + seq.toNat) policy first later

/-- Sorted records are given the same reverses as their edges. -/
theorem map_atOrigin_withReverses {records : List EdgeRecord} (sorted : records.Pairwise EndsBefore) :
    (Cleanup.withReverses records).map atOrigin = Reference.addReverses (records.map atOrigin) :=
  Cleanup.placedAt_withReverses (fun rank seq => rank.toNat * 2 ^ 64 + seq.toNat)
    (pair_sorted_of_endsBefore sorted)

/-- Encoded edges are read off their records one by one. -/
theorem map_atOrigin {group : List (EdgeRecord × PlacedEdge)}
    (encoded : ∀ pair ∈ group, pair.1.atOrigin = pair.2) :
    (group.map Prod.fst).map atOrigin = group.map Prod.snd := by
  rw [List.map_map]
  exact List.map_congr_left encoded

/-- Records keep up with their edges under all operations. -/
theorem Encodes.atOrigin_eq {record : EdgeRecord} {placed : PlacedEdge} (encodes : Encodes record placed) :
    record.atOrigin = placed := by
  -- The induction follows how the record was made; in a group it applies to every member.
  induction encodes with
  | handedIn edge small seq => exact atOrigin_ofEdge edge small seq
  | withWeight weight _ ih => rw [atOrigin_withWeight, ih]
  | reversed _ ih => exact congrArg PlacedEdge.reversed ih
  | merged policy _ _ ih ihLater => rw [atOrigin_merge, ih, map_atOrigin ihLater]
  | closed _ sorted held told ih =>
    rw [← map_atOrigin ih, ← map_atOrigin_withReverses sorted, List.getElem?_map, held] at told
    exact Option.some.inj told

/-- No operation sets anything in a record that its edge does not have. -/
theorem Encodes.canonical {record : EdgeRecord} {placed : PlacedEdge} (encodes : Encodes record placed) :
    record.Canonical := by
  -- Merging and closing under reversal come down to a new weight and to turning around.
  induction encodes with
  | handedIn edge _ seq => exact canonical_ofEdge _ _ _
  | withWeight weight _ ih => exact ih.withWeight weight
  | reversed _ ih => exact ih.reversed
  | merged policy _ _ ih _ => exact ih.merge policy _
  | closed _ _ held _ ih =>
    refine Cleanup.forall_withReverses ?_ (fun _ known => known.reversed) _ (List.mem_of_getElem? held)
    intro origin member
    obtain ⟨pair, found, rfl⟩ := List.mem_map.mp member
    exact ih pair found

/-- A group in any order is given no reverses but of its own edges. -/
theorem exists_encodes_of_mem_withReverses {group : List (EdgeRecord × PlacedEdge)}
    (encoded : ∀ pair ∈ group, Encodes pair.1 pair.2) {record : EdgeRecord}
    (member : record ∈ Cleanup.withReverses (group.map Prod.fst)) :
    ∃ pair ∈ group, ∃ placed, (placed = pair.2 ∨ placed = pair.2.reversed) ∧ Encodes record placed := by
  -- What halving finds does not matter here: whatever is added is some record turned around.
  rcases List.mem_append.mp member with own | added
  · obtain ⟨pair, found, rfl⟩ := List.mem_map.mp own
    exact ⟨pair, found, pair.2, .inl rfl, encoded pair found⟩
  · obtain ⟨origin, kept, rfl⟩ := List.mem_map.mp added
    obtain ⟨pair, found, rfl⟩ := List.mem_map.mp (List.mem_of_mem_filter kept)
    exact ⟨pair, found, pair.2.reversed, .inr rfl, (encoded pair found).reversed⟩

/-- Whatever is done to records, they stand for the edges that the same operations come to, tell where those
come from and are canonical, so that making them anew of their edges changes no bit. -/
theorem encodes_exact :
    (∀ record placed, Encodes record placed →
      record.toEdge = placed.edge ∧ record.originNumber = placed.position ∧ record.Canonical ∧
        ofEdge record.toEdge record.originRank.toNat record.originSeq = record) ∧
    ∀ group : List (EdgeRecord × PlacedEdge), (∀ pair ∈ group, Encodes pair.1 pair.2) →
      ((group.map Prod.fst).Pairwise EndsBefore →
        (Cleanup.withReverses (group.map Prod.fst)).length =
          (Reference.addReverses (group.map Prod.snd)).length) ∧
      ∀ record ∈ Cleanup.withReverses (group.map Prod.fst),
        ∃ pair ∈ group, ∃ placed,
          (placed = pair.2 ∨ placed = pair.2.reversed) ∧ Encodes record placed := by
  constructor
  · intro record placed encodes
    -- An encoding is the edge at the record's own place of origin.
    obtain rfl := encodes.atOrigin_eq
    exact ⟨rfl, rfl, encodes.canonical, encodes.canonical.ofEdge_toEdge⟩
  · intro group encoded
    -- The reference adds reverses to the edges, of which the records are the encodings in the same order.
    refine ⟨fun sorted => ?_, fun record member => exists_encodes_of_mem_withReverses encoded member⟩
    rw [← map_atOrigin fun pair member => (encoded pair member).atOrigin_eq,
      ← map_atOrigin_withReverses sorted, List.length_map]

/-- An edge loses a weight of zero, is turned around and takes in three parallel edges with weights; the
reverse of what they are merged into has the sum of these, added up from the first one on, and still the place
of origin of the first edge. -/
theorem encodes_exact_sample :
    let first := (EdgeRecord.ofEdge ⟨2, 1, some .zero, none, some 0⟩ 1 5).withWeight none
    let later : List Edge := [⟨1, 2, some ⟨7⟩, some 0, none⟩, ⟨1, 2, some ⟨4⟩, none, none⟩,
      ⟨1, 2, some ⟨9⟩, none, some 3⟩]
    let merged := MergePolicy.sum.merge first.reversed (EdgeRecord.ofEdges (2 : Fin 3) later)
    let total : Weight := (Weight.add ⟨7⟩ ⟨4⟩).add ⟨9⟩
    let placed : PlacedEdge := ⟨⟨1, 2, some total, none, some 0⟩, 2 ^ 64 + 5⟩
    (Encodes merged placed ∧ Encodes merged.reversed placed.reversed ∧ [merged].Pairwise EndsBefore) ∧
    merged.toEdge = placed.edge ∧ merged.Canonical ∧
    ofEdge merged.toEdge merged.originRank.toNat merged.originSeq = merged ∧
    merged.reversed.originNumber = placed.position ∧
    (Cleanup.withReverses [merged]).length = (Reference.addReverses [placed]).length := by
  intro first later merged total placed
  have handed : Encodes first ⟨⟨2, 1, none, none, some 0⟩, 1 * 2 ^ 64 + 5⟩ :=
    .withWeight none (.handedIn ⟨2, 1, some .zero, none, some 0⟩ (by decide) 5)
  let others : List (EdgeRecord × PlacedEdge) := later.zipIdx.map fun entry =>
    (.ofEdge entry.1 2 (UInt64.ofNat entry.2), ⟨entry.1, 2 * 2 ^ 64 + (UInt64.ofNat entry.2).toNat⟩)
  have handedLater : ∀ pair ∈ others, Encodes pair.1 pair.2 := by
    intro pair member
    obtain ⟨⟨edge, seq⟩, -, rfl⟩ := List.mem_map.mp member
    exact .handedIn edge (by decide) _
  -- The first record has lost its weight and is turned around before it takes the others in.
  have encoded : Encodes merged placed :=
    @Encodes.merged .sum (first.reversed, _) others handed.reversed handedLater
  have alone : ∀ pair ∈ [(merged, placed)], Encodes pair.1 pair.2 := by
    intro pair member
    cases List.mem_singleton.mp member
    exact encoded
  have sorted : [merged].Pairwise EndsBefore := List.pairwise_singleton _ _
  -- The merged record is alone, so that its reverse is the only one that can be missing.
  have closed : Cleanup.withReverses [merged] = [merged, merged.reversed] := by
    have lacks : merged.src ≠ merged.dst ∧ merged.ends.swap ∉ [merged].map EdgeRecord.ends := by decide
    have missing : Cleanup.missingReverses [merged] = [merged.reversed] := by
      rw [Cleanup.missingReverses_eq (pair_sorted_of_endsBefore sorted),
        List.filter_eq_self.mpr fun record member => ?_]
      · rfl
      · cases List.mem_singleton.mp member
        exact decide_eq_true lacks
    rw [Cleanup.withReverses, missing]
    rfl
  have turned : Encodes merged.reversed placed.reversed :=
    @Encodes.closed _ alone sorted 1 _ _ (congrArg (·[1]?) closed) rfl
  obtain ⟨edge, _, canonical, again⟩ := encodes_exact.1 merged placed encoded
  obtain ⟨_, position, _, _⟩ := encodes_exact.1 _ _ turned
  exact ⟨⟨encoded, turned, sorted⟩, edge, canonical, again, position,
    (encodes_exact.2 [(merged, placed)] alone).1 sorted⟩

end EdgeRecord

end DistGraph
