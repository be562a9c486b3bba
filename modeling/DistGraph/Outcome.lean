/-! When computations that may fail come to a result. -/

namespace DistGraph

variable {ε ζ α β : Type}

section Steps

variable (value : α) (error : ε) (later : α → Except ε β) (tell : ε → ζ) (read : α → β)

/-- A result alone fails at nothing. -/
@[simp] theorem pure_eq_ok : (pure value : Except ε α) = .ok value := rfl

/-- What follows on a result goes on from it. -/
@[simp] theorem ok_bind : (.ok value >>= later) = later value := rfl

/-- Nothing follows on a failure. -/
@[simp] theorem error_bind : (.error error >>= later) = .error error := rfl

/-- A result is read. -/
@[simp] theorem map_ok : (.ok value : Except ε α).map read = .ok (read value) := rfl

/-- Of a failure nothing is read. -/
@[simp] theorem map_error : (.error error : Except ε α).map read = .error error := rfl

/-- A result is no error that is told in any way. -/
@[simp] theorem mapError_ok : (.ok value : Except ε α).mapError tell = .ok value := rfl

/-- An error is told. -/
@[simp] theorem mapError_error : (.error error : Except ε α).mapError tell = .error (tell error) := rfl

end Steps

/-- What is allowed under a condition alone is allowed exactly when that holds. -/
@[simp] theorem ite_eq_ok_iff {allowed : Prop} [Decidable allowed] {error : ε} :
    (if allowed then .ok () else .error error : Except ε Unit) = .ok () ↔ allowed := by
  split <;> simp [*]

/-- Two computations in a row come to a result if both do. -/
theorem bind_eq_ok_iff {first : Except ε α} {later : α → Except ε β} {result : β} :
    first >>= later = .ok result ↔ ∃ value, first = .ok value ∧ later value = .ok result := by
  cases first <;> simp

/-- Of two computations in a row one fails if both together do. -/
theorem bind_eq_error {first : Except ε α} {later : α → Except ε β} {error : ε}
    (failing : first >>= later = .error error) :
    first = .error error ∨ ∃ value, first = .ok value ∧ later value = .error error := by
  -- The second computation is reached only behind a result.
  cases first with
  | error reason =>
    cases failing
    exact .inl rfl
  | ok value => exact .inr ⟨value, rfl, failing⟩

/-- Telling errors in another way makes no results. -/
@[simp] theorem mapError_eq_ok_iff {tell : ε → ζ} {computed : Except ε α} {result : α} :
    computed.mapError tell = .ok result ↔ computed = .ok result := by
  cases computed <;> simp

/-- Entries that all have a result are taken to their results. -/
theorem mapM_eq_ok {compute : α → Except ε β} {entries : List α} {result : α → β}
    (each : ∀ entry ∈ entries, compute entry = .ok (result entry)) :
    entries.mapM compute = .ok (entries.map result) := by
  induction entries with
  | nil => rfl
  | cons entry entries ih =>
    -- The first entry and the rest come to their results, which stand in that order.
    have rest := ih fun later member => each later (List.mem_cons_of_mem _ member)
    rw [List.mapM_cons, each entry List.mem_cons_self, rest]
    rfl

/-- Entries are taken to results only if each of them has one. -/
theorem exists_of_mapM_eq_ok {compute : α → Except ε β} {entries : List α} {results : List β}
    (mapped : entries.mapM compute = .ok results) :
    ∀ entry ∈ entries, ∃ result, compute entry = .ok result := by
  induction entries generalizing results with
  | nil => simp
  | cons entry entries ih =>
    -- Results for all entries are one for the first and some for the rest.
    rw [List.mapM_cons, bind_eq_ok_iff] at mapped
    obtain ⟨first, made, mapped⟩ := mapped
    obtain ⟨rest, madeRest, -⟩ := bind_eq_ok_iff.mp mapped
    intro later member
    rcases List.mem_cons.mp member with rfl | member
    · exact ⟨first, made⟩
    · exact ih madeRest later member

/-- Entries fail to be taken to results only where one of them has none. -/
theorem exists_of_mapM_eq_error {compute : α → Except ε β} {entries : List α} {error : ε}
    (failing : entries.mapM compute = .error error) : ∃ entry ∈ entries, compute entry = .error error := by
  induction entries with
  | nil => cases failing
  | cons entry entries ih =>
    rw [List.mapM_cons] at failing
    -- The first entry fails, or the rest does.
    cases first : compute entry with
    | error reason =>
      rw [first] at failing
      cases failing
      exact ⟨entry, List.mem_cons_self, first⟩
    | ok result =>
      cases rest : entries.mapM compute with
      | error reason =>
        simp only [first, rest, ok_bind, error_bind, Except.error.injEq] at failing
        obtain ⟨later, member, failed⟩ := ih (failing ▸ rest)
        exact ⟨later, List.mem_cons_of_mem _ member, failed⟩
      | ok results => simp [first, rest] at failing

/-- The first entry without a result decides the error. -/
theorem mapM_eq_error {compute : α → Except ε β} {front back : List α} {entry : α} {error : ε}
    (fronted : ∀ earlier ∈ front, ∃ result, compute earlier = .ok result)
    (failed : compute entry = .error error) : (front ++ entry :: back).mapM compute = .error error := by
  induction front with
  | nil =>
    rw [List.nil_append, List.mapM_cons, failed]
    rfl
  | cons first front ih =>
    obtain ⟨result, made⟩ := fronted first List.mem_cons_self
    -- An entry with a result in front leaves the error to the later ones.
    have rest := ih fun earlier member => fronted earlier (List.mem_cons_of_mem _ member)
    rw [List.cons_append, List.mapM_cons, made, rest]
    rfl

end DistGraph
