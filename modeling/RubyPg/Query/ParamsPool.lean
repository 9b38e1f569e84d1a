import RubyPg.Query.Params

/-!
# The memory pool of the query parameters is safe

`required_pool_size` keeps counting while `typecast_buf` may already point into a heap
chunk. What it still guarantees there is `PoolSafe.room`: the current buffer has at least
`querydataBufferSize - required` bytes left. One round of the loop keeps `PoolSafe`
(`allocParam_safe`), and so does every run (`allocParams_safe`), raising or not.
-/

namespace RubyPg.Query
set_option autoImplicit false
open Ascii

/-- The two-pass contract: the second pass writes no more than the first announced, and that is
below `INT_MAX`. -/
structure QueryCoder.Contract (coder : QueryCoder) : Prop where
  small : ∀ param len second, coder.encFunc param = .ok (.size len second) → len < intMax
  bounded : ∀ param len bytes, coder.encFunc param = .ok (.size len (.ok bytes)) → bytes.length ≤ len

section Pool

variable (withTypes : Bool) (nParams : Nat)

/-- One grant lies inside its buffer and apart from the argument arrays. -/
structure GrantSafe (chunks : List Nat) (g : Grant) : Prop where
  granted : g.granted.Inside (capacity withTypes nParams chunks)
  inUse : g.inUse.Inside (capacity withTypes nParams chunks)
  arrays : ∀ a ∈ argArrays withTypes nParams, g.granted.Disjoint a ∧ g.inUse.Disjoint a
  known : ∀ k, g.buf = .chunk k → k < chunks.length

/-- The invariant of the loop. -/
structure PoolSafe (st : PoolState) : Prop where
  inside : st.off ≤ capacity withTypes nParams st.chunks st.buf
  room : querydataBufferSize - st.required ≤ capacity withTypes nParams st.chunks st.buf - st.off
  notHeapPool : st.buf ≠ .heapPool
  behindArrays : st.buf = arraysBuffer withTypes nParams → arraysSize withTypes nParams ≤ st.off
  known : ∀ k, st.buf = .chunk k → k < st.chunks.length
  grants : ∀ g ∈ st.grants, GrantSafe withTypes nParams st.chunks g
  behind : ∀ g ∈ st.grants, g.buf = st.buf → g.start + g.kept ≤ st.off
  apart : st.grants.Pairwise fun g g' => g.inUse.Disjoint g'.granted ∧ g.inUse.Disjoint g'.inUse

variable {withTypes nParams}

/-- The argument arrays end where `arraysSize` says. -/
theorem argArrays_end {a : Region Buffer} (member : a ∈ argArrays withTypes nParams) :
    a.buf = arraysBuffer withTypes nParams ∧ a.start + a.size ≤ arraysSize withTypes nParams := by
  simp only [argArrays, List.mem_cons, List.not_mem_nil, or_false] at member
  unfold arraysSize
  rcases member with rfl | rfl | rfl | rfl
  · exact ⟨rfl, by dsimp only; split <;> omega⟩
  · exact ⟨rfl, by dsimp only; split <;> omega⟩
  · exact ⟨rfl, by dsimp only; split <;> omega⟩
  · exact ⟨rfl, by dsimp only; split <;> omega⟩

/-- A new chunk does not change the buffers there are. -/
theorem capacity_append {chunks : List Nat} {b : Buffer} (len : Nat) (known : ∀ k, b = .chunk k → k < chunks.length) :
    capacity withTypes nParams (chunks ++ [len]) b = capacity withTypes nParams chunks b := by
  cases b with
  | memoryPool => rfl
  | heapPool => rfl
  | chunk k =>
    have := known k rfl
    simp [capacity, List.getElem?_append_left this]

theorem GrantSafe.append {chunks : List Nat} {g : Grant} (safe : GrantSafe withTypes nParams chunks g) (len : Nat) :
    GrantSafe withTypes nParams (chunks ++ [len]) g := by
  refine ⟨?_, ?_, safe.arrays, fun k hk => ?_⟩
  · simpa only [Region.Inside, Grant.granted, capacity_append len safe.known] using safe.granted
  · simpa only [Region.Inside, Grant.inUse, capacity_append len safe.known] using safe.inUse
  · have := safe.known k hk
    rw [List.length_append]
    omega

/-- What `reserve` hands out has room for the value and its terminator. -/
theorem reserve_safe {st : PoolState} (safe : PoolSafe withTypes nParams st) {len : Nat} (small : len < intMax) :
    PoolSafe withTypes nParams (reserve st len) ∧
      (reserve st len).off + (len + 1) ≤ capacity withTypes nParams (reserve st len).chunks (reserve st len).buf := by
  unfold reserve
  by_cases full : querydataBufferSize < st.required + len + 1
  · have size : capacity withTypes nParams (st.chunks ++ [intSucc len]) (.chunk st.chunks.length) = len + 1 := by
      simp [capacity, intSucc, small]
    rw [if_pos full]
    refine ⟨⟨?_, ?_, ?_, ?_, ?_, ?_, ?_, safe.apart⟩, ?_⟩
    · exact Nat.zero_le _
    · dsimp only [allocTypecastBuf]
      rw [size]
      omega
    · simp [allocTypecastBuf]
    · intro same
      unfold arraysBuffer at same
      split at same <;> cases same
    · rintro k same
      obtain rfl : st.chunks.length = k := by simpa [allocTypecastBuf] using same
      simp [allocTypecastBuf]
    · exact fun g hg => (safe.grants g hg).append _
    · intro g hg same
      exact absurd ((safe.grants g hg).known _ same) (Nat.lt_irrefl _)
    · dsimp only [allocTypecastBuf]
      rw [size]
      omega
  · rw [if_neg full]
    have := safe.room
    have := safe.inside
    exact ⟨safe, by omega⟩

/-- Log one second pass into memory that `reserve` handed out. -/
theorem grant_safe {st : PoolState} (safe : PoolSafe withTypes nParams st) {len kept : Nat}
    (fits : st.off + (len + 1) ≤ capacity withTypes nParams st.chunks st.buf) (bounded : kept ≤ len + 1)
    (args : List Arg) :
    PoolSafe withTypes nParams
      { st with required := st.required + kept, off := st.off + kept, args := args,
                grants := st.grants ++ [⟨st.buf, st.off, len, kept⟩] } := by
  have room := safe.room
  have fresh : GrantSafe withTypes nParams st.chunks ⟨st.buf, st.off, len, kept⟩ := by
    refine ⟨?_, ?_, fun a ha => ?_, safe.known⟩
    · unfold Region.Inside Grant.granted
      dsimp only
      omega
    · unfold Region.Inside Grant.inUse
      dsimp only
      omega
    · obtain ⟨buf, ends⟩ := argArrays_end ha
      have front : a.buf = st.buf → a.start + a.size ≤ st.off := fun same =>
        Nat.le_trans ends (safe.behindArrays (same ▸ buf))
      exact ⟨.symm (.of_le front), .symm (.of_le front)⟩
  refine ⟨?_, ?_, safe.notHeapPool, ?_, safe.known, ?_, ?_, ?_⟩
  · dsimp only
    omega
  · dsimp only
    omega
  · intro same
    exact Nat.le_trans (safe.behindArrays same) (Nat.le_add_right _ _)
  · intro g hg
    rcases List.mem_append.1 hg with old | new
    · exact safe.grants g old
    · rw [List.mem_singleton.1 new]
      exact fresh
  · intro g hg same
    rcases List.mem_append.1 hg with old | new
    · exact Nat.le_trans (safe.behind g old same) (Nat.le_add_right _ _)
    · obtain rfl := List.mem_singleton.1 new
      exact Nat.le_refl _
  · refine List.pairwise_append.2 ⟨safe.apart, List.pairwise_singleton _ _, fun g hg g' hg' => ?_⟩
    rw [List.mem_singleton.1 hg']
    exact ⟨.of_le (safe.behind g hg), .of_le (safe.behind g hg)⟩

/-- Storing an argument does not touch the pool. -/
theorem PoolSafe.withArgs {st : PoolState} (safe : PoolSafe withTypes nParams st) (args : List Arg) :
    PoolSafe withTypes nParams { st with args } :=
  ⟨safe.inside, safe.room, safe.notHeapPool, safe.behindArrays, safe.known, safe.grants, safe.behind, safe.apart⟩

theorem castParam_safe {st : PoolState} (safe : PoolSafe withTypes nParams st) {format : Int} {type len : Nat}
    {second : Outcome Bytes} (small : len < intMax) (bounded : ∀ bytes, second = .ok bytes → bytes.length ≤ len) :
    PoolSafe withTypes nParams (castParam st format type len second).1 := by
  obtain ⟨reserved, fits⟩ := reserve_safe safe small
  unfold castParam
  cases second with
  | error e => exact grant_safe reserved fits (Nat.zero_le _) _
  | ok bytes =>
    have := bounded bytes rfl
    refine grant_safe reserved fits ?_ _
    split <;> omega

/-- Without a coder there is no second pass. -/
theorem pgCoderEncFunc_size {rt : Runtime} {conv : Option QueryCoder} {param : QueryParam} {len : Nat}
    {second : Outcome Bytes} (answer : pgCoderEncFunc rt conv param = .ok (.size len second)) :
    ∃ coder, conv = some coder ∧ coder.encFunc param = .ok (.size len second) := by
  cases conv with
  | none => cases param <;> cases answer
  | some coder => exact ⟨coder, rfl, answer⟩

/-- One round of the loop keeps the invariant. -/
theorem allocParam_safe {rt : Runtime} {typemap : QueryTypeMap} {st : PoolState}
    (contract : ∀ p i coder, typemap.typecastQueryParam p i = some coder → coder.Contract)
    (safe : PoolSafe withTypes nParams st) (i : Nat) (param : QueryParam) :
    PoolSafe withTypes nParams (allocParam rt withTypes typemap st i param).1 := by
  unfold allocParam
  dsimp only
  split
  · exact safe
  · exact safe.withArgs _
  · split
    · exact safe
    · split
      · exact safe
      · exact safe.withArgs _
    · rename_i answer
      obtain ⟨coder, chosen, answer⟩ := pgCoderEncFunc_size answer
      have obeys := contract param i coder chosen
      exact castParam_safe safe (obeys.small _ _ _ answer) fun bytes h => obeys.bounded _ _ _ (h ▸ answer)

/-- Every run of the loop keeps the invariant. -/
theorem allocParams_safe {rt : Runtime} {typemap : QueryTypeMap} {st : PoolState}
    (contract : ∀ p i coder, typemap.typecastQueryParam p i = some coder → coder.Contract)
    (safe : PoolSafe withTypes nParams st) (i : Nat) (params : List QueryParam) :
    PoolSafe withTypes nParams (allocParams rt withTypes typemap st i params).1 := by
  induction params generalizing st i with
  | nil => exact safe
  | cons param params ih =>
    have step := @allocParam_safe withTypes nParams rt typemap st contract safe i param
    unfold allocParams
    split
    · rename_i raised
      rwa [raised] at step
    · rename_i returned
      rw [returned] at step
      exact ih step (i + 1)

end Pool

theorem initialPool_safe (withTypes : Bool) (nParams : Nat) :
    PoolSafe withTypes nParams (initialPool withTypes nParams) := by
  refine ⟨?_, ?_, by simp [initialPool], ?_, by simp [initialPool], by simp [initialPool], by simp [initialPool], .nil⟩
  · simp only [initialPool, capacity]
    split <;> omega
  · simp only [initialPool, capacity]
    exact Nat.le_refl _
  · intro same
    unfold arraysBuffer at same
    unfold initialPool
    dsimp only at same ⊢
    split at same
    · cases same
    · rename_i fits
      simp only [if_neg fits, Nat.le_refl]

/-- **The query parameter memory pool.** For every list of parameters and every choice of encoders that
obey the two-pass contract: what a second pass may write, and the terminator, lies inside its
buffer; what is in use for one parameter is apart from what any later second pass may write or use,
and from the argument arrays; and after every number of rounds the current buffer has at least
`memory_pool` minus `required_pool_size` bytes left. -/
theorem query_params_pool (rt : Runtime) (withTypes : Bool) (typemap : QueryTypeMap) (params : List QueryParam)
    (contract : ∀ p i coder, typemap.typecastQueryParam p i = some coder → coder.Contract) :
    let st := (allocQueryParams rt withTypes typemap params).1
    let size := capacity withTypes params.length st.chunks
    (∀ g ∈ st.grants, g.granted.Inside size ∧ g.inUse.Inside size) ∧
    (st.grants.Pairwise fun g g' => g.inUse.Disjoint g'.granted ∧ g.inUse.Disjoint g'.inUse) ∧
    (∀ g ∈ st.grants, ∀ a ∈ argArrays withTypes params.length, g.granted.Disjoint a ∧ g.inUse.Disjoint a) ∧
    ∀ rounds : Nat,
      let st := (allocParams rt withTypes typemap (initialPool withTypes params.length) 0 (params.take rounds)).1
      querydataBufferSize - st.required ≤ capacity withTypes params.length st.chunks st.buf - st.off := by
  intro st size
  have start := initialPool_safe withTypes params.length
  have safe : PoolSafe withTypes params.length st := by
    unfold st allocQueryParams
    split
    · exact start
    · exact allocParams_safe contract start 0 params
  refine ⟨fun g hg => ?_, safe.apart, fun g hg => (safe.grants g hg).arrays, fun rounds => ?_⟩
  · exact ⟨(safe.grants g hg).granted, (safe.grants g hg).inUse⟩
  · exact (allocParams_safe contract start 0 (params.take rounds)).room

/-- Three parameters, a `nil` and two short values with a large estimate: the second of these no longer
fits the pool by its estimate and gets a chunk. -/
theorem query_params_pool_chunk :
    let typemap : QueryTypeMap :=
      { fitToQuery := fun _ => pure ()
        typecastQueryParam := fun _ i =>
          if i = 0 then none else some ⟨0, 23, fun _ => .ok (.size 3950 (.ok [0x31, 0x32]))⟩ }
    let st := (allocQueryParams .sample false typemap [.value .nil, .value .true, .value .true]).1
    st.grants = [⟨.memoryPool, 48, 3950, 3⟩, ⟨.chunk 0, 0, 3950, 3⟩] ∧
      (∀ g ∈ st.grants, g.granted.Inside (capacity false 3 st.chunks) ∧ g.inUse.Inside (capacity false 3 st.chunks)) ∧
      st.grants.Pairwise fun g g' => g.inUse.Disjoint g'.granted ∧ g.inUse.Disjoint g'.inUse := by
  intro typemap st
  have contract : ∀ p i coder, typemap.typecastQueryParam p i = some coder → coder.Contract := by
    intro p i coder chosen
    dsimp only [typemap] at chosen
    split at chosen
    · cases chosen
    · obtain rfl := Option.some.inj chosen
      refine ⟨fun _ len second answer => ?_, fun _ len bytes answer => ?_⟩
      · cases answer
        decide
      · cases answer
        decide
  have pool := query_params_pool .sample false typemap [.value .nil, .value .true, .value .true] contract
  exact ⟨by decide, pool.1, pool.2.1⟩

end RubyPg.Query
