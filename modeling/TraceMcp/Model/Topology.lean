import Mathlib.Order.Bounds.Basic
import TraceMcp.Lib.PowersOfTwo
import TraceMcp.Lib.Runs
import TraceMcp.Lib.Word
import TraceMcp.Model.Session

/-!
# AUX sizing

`IntelPtConfig::fit_aux_topology` and `fit_aux_per_thread` of
`src/model/config.rs`: the size of the AUX rings for the recorder that will run,
one ring per recorded CPU or one per traced thread. An explicit size is
honoured or rejected; an omitted one is chosen, up to a cap, and the
configuration then has it as if it were explicit.

A function returns `none` where its arithmetic overflows: a debug build panics
there, a release build goes on with the wrapped value.
-/

namespace TraceMcp

open TraceMcp.Lib

/-! ## Sizes -/

/-- `DEFAULT_DIRECT_AUX_BYTES`: 32 MiB. -/
def defaultDirectAuxBytes : Nat := 32 * 1024 * 1024

/-- `MAX_AUTO_AUX_BYTES`: 256 MiB. -/
def maxAutoAuxBytes : Nat := 256 * 1024 * 1024

/-- `suggested_aux`. -/
def suggestedAux (ncpus maxTotal pageSize : Nat) : Option Nat :=
  if ncpus = 0 then some pageSize
  else
    let per := maxTotal / ncpus
    -- `next_power_of_two`
    if nextPow2 per < wordSize then some (max (prevPow2 per) pageSize) else none

/-- `AuxTopology`. -/
structure AuxTopology where
  ncpus : Nat
  pageSize : Nat
  metaPages : Nat
  auxBytesPerBuffer : Nat
  auxTotal : Nat
  metaTotal : Nat

/-- `AuxTopology::compute`. -/
def AuxTopology.compute (ncpus pageSize metaPages auxBytes maxTotalAux : Nat) :
    Option (Result AuxTopology) :=
  if ncpus = 0 then
    some (.error (.new .unsupportedPtConfig "cannot bound AUX topology: CPU count is unknown"))
  else
    match validateAuxBytes auxBytes pageSize with
    | .error err => some (.error err)
    | .ok () =>
      match checkedMul ncpus auxBytes with
      | none => some (.error (.new .unsupportedPtConfig "AUX topology overflow"))
      | some auxTotal =>
        if maxTotalAux < auxTotal then
          (suggestedAux ncpus maxTotalAux pageSize).map fun suggest =>
            .error ((Error.new .unsupportedPtConfig
              s!"per-CPU AUX topology {ncpus} x {auxBytes} = {auxTotal} exceeds max_total_aux_bytes {maxTotalAux}").withNext
              s!"Lower aux_bytes_per_buffer; largest power-of-two that fits is {suggest}")
        else
          match (checkedMul ncpus metaPages).bind fun p => checkedMul p pageSize with
          | none => some (.error (.new .unsupportedPtConfig "metadata topology overflow"))
          | some metaTotal =>
            some (.ok ⟨ncpus, pageSize, metaPages, auxBytes, auxTotal, metaTotal⟩)

namespace IntelPtConfig

variable (config : IntelPtConfig)

/-- The number of rings: the CPUs that are listed, which are to be online, or
all that are. -/
def ringCount (onlineCpus : Nat) : Result Nat :=
  match config.cpus with
  | some cpus =>
    match cpus.find? fun c => onlineCpus ≤ c with
    | some bad => .error (.invalidArgument s!"cpu {bad} is not online ({onlineCpus} online CPUs)")
    | none => .ok cpus.length
  | none => .ok onlineCpus

/-- The size that is tried first. -/
def requestedAux (ncpus pageSize : Nat) : Option Nat :=
  match config.auxBytesPerBuffer, config.cpus with
  | some v, _ => some v
  | none, some _ =>
    (suggestedAux ncpus config.maxTotalAuxBytes pageSize).map fun v =>
      min (max v defaultAuxBytes) maxAutoAuxBytes
  | none, none => some defaultAuxBytes

/-- The topology of that size, or of the suggested one where a chosen size does not fit. -/
def chooseTopology (ncpus pageSize metaPages : Nat) : Option (Result AuxTopology) :=
  let compute aux := AuxTopology.compute ncpus pageSize metaPages aux config.maxTotalAuxBytes
  match (config.requestedAux ncpus pageSize).bind compute with
  | none => none
  | some (.ok top) => some (.ok top)
  | some (.error err) =>
    if config.auxBytesPerBuffer.isSome then some (.error err)
    else
      (suggestedAux ncpus config.maxTotalAuxBytes pageSize).bind fun suggest =>
        match validateAuxBytes suggest pageSize with
        | .error err => some (.error err)
        | .ok () => compute suggest

/-- The configuration with the size that was found, as it is left by both functions. -/
def settle : Result AuxTopology → Result AuxTopology × IntelPtConfig
  | .ok top => (.ok top,
    { config with
      auxBytesAuto := config.auxBytesAuto || config.auxBytesPerBuffer.isNone
      auxBytesPerBuffer := some top.auxBytesPerBuffer })
  | .error err => (.error err, config)

/-- `fit_aux_topology`, with the configuration as it is left. -/
def fitAuxTopology (onlineCpus pageSize metaPages : Nat) :
    Option (Result AuxTopology × IntelPtConfig) :=
  match config.validate pageSize with
  | .error err => some (config.settle (.error err))
  | .ok () =>
    match config.ringCount onlineCpus with
    | .error err => some (config.settle (.error err))
    | .ok ncpus => (config.chooseTopology ncpus pageSize metaPages).map config.settle

/-- The size for the direct recorder: `1 << (63 - leading_zeros)` has no value for 0. -/
def directAux : Option Nat :=
  let aux := min (config.auxBytesPerBuffer.getD defaultDirectAuxBytes) config.maxTotalAuxBytes
  if isPowerOfTwo aux then some aux else if aux = 0 then none else some (2 ^ aux.log2)

/-- `fit_aux_per_thread`, with the configuration as it is left. -/
def fitAuxPerThread (pageSize metaPages : Nat) : Option (Result AuxTopology × IntelPtConfig) :=
  match config.validate pageSize with
  | .error err => some (config.settle (.error err))
  | .ok () =>
    config.directAux.map fun aux =>
      match validateAuxBytes aux pageSize with
      | .error err => config.settle (.error err)
      | .ok () =>
        config.settle (.ok ⟨1, pageSize, metaPages, aux, aux,
          min (metaPages * pageSize) (wordSize - 1)⟩)

end IntelPtConfig

/-! ## What a size is to be -/

/-- A size that `validate_aux_bytes` lets pass. -/
def ValidAux (pageSize size : Nat) : Prop := (∃ k, size = 2 ^ k) ∧ pageSize ∣ size

/-- A size that can be chosen for `n` rings: valid, up to the cap, and within
the budget on all of them. -/
def Admissible (pageSize n cap budget size : Nat) : Prop :=
  ValidAux pageSize size ∧ size ≤ cap ∧ size * n ≤ budget

/-- The configuration is in order, the size apart. -/
structure IntelPtConfig.Usable (config : IntelPtConfig) : Prop where
  capture : config.maxCaptureMs ≠ 0
  cpus : ∀ cpus, config.cpus = some cpus → cpus ≠ [] ∧ cpus.Nodup
  filters : ∀ f ∈ config.addressFilters, blank f.symbol = false

section Sizes

theorem isPowerOfTwo_iff {n : Nat} : isPowerOfTwo n = true ↔ ∃ k, n = 2 ^ k := by
  rw [isPowerOfTwo, Bool.and_eq_true, bne_iff_ne, beq_iff_eq]
  exact Nat.ne_zero_and_sub_one_eq_zero_iff_isPowerOfTwo

theorem validateAuxBytes_iff {pageSize : Nat} (hpage : isPowerOfTwo pageSize = true) (size : Nat) :
    validateAuxBytes size pageSize = .ok () ↔ ValidAux pageSize size := by
  unfold validateAuxBytes ValidAux
  rw [hpage, Bool.not_true, if_neg Bool.false_ne_true, ← isPowerOfTwo_iff, Nat.dvd_iff_mod_eq_zero]
  split
  next hbad =>
    refine iff_of_false (fun h => by cases h) ?_
    rintro ⟨hpow, hmod⟩
    rw [hpow, hmod] at hbad
    cases hbad
  next hgood =>
    rw [Bool.or_eq_true, not_or, decide_eq_true_iff, not_not, Bool.not_eq_true',
      Bool.not_eq_false] at hgood
    exact iff_of_true rfl hgood.symm

/-- A page divides every power of two from it on. -/
theorem validAux_of_le {pageSize : Nat} (hpage : isPowerOfTwo pageSize = true) {k : Nat}
    (hle : pageSize ≤ 2 ^ k) : ValidAux pageSize (2 ^ k) := by
  obtain ⟨j, rfl⟩ := isPowerOfTwo_iff.mp hpage
  exact ⟨⟨k, rfl⟩, Nat.pow_dvd_pow 2 ((Nat.pow_le_pow_iff_right Nat.one_lt_two).mp hle)⟩

theorem ValidAux.page_le {pageSize size : Nat} (h : ValidAux pageSize size) : pageSize ≤ size := by
  obtain ⟨⟨k, rfl⟩, hdvd⟩ := h
  exact Nat.le_of_dvd (Nat.two_pow_pos k) hdvd

theorem ValidAux.pos {pageSize size : Nat} (h : ValidAux pageSize size) : 0 < size := by
  obtain ⟨⟨k, rfl⟩, -⟩ := h
  exact Nat.two_pow_pos k

theorem repeatedCpu_eq_none {seen cpus : List Nat} :
    repeatedCpu seen cpus = none ↔ cpus.Nodup ∧ ∀ c ∈ cpus, c ∉ seen := by
  induction cpus generalizing seen with
  | nil => exact iff_of_true rfl ⟨List.nodup_nil, fun c hc => absurd hc List.not_mem_nil⟩
  | cons c cpus ih =>
    unfold repeatedCpu
    split
    next hseen =>
      refine iff_of_false (fun h => by cases h) ?_
      exact fun h => h.2 c List.mem_cons_self hseen
    next hseen =>
      rw [ih, List.nodup_cons]
      constructor
      · rintro ⟨hnodup, hnew⟩
        refine ⟨⟨fun hc => hnew c hc List.mem_cons_self, hnodup⟩, fun d hd => ?_⟩
        rcases List.mem_cons.mp hd with rfl | hd
        · exact hseen
        · exact fun hmem => hnew d hd (List.mem_cons_of_mem _ hmem)
      · rintro ⟨⟨hc, hnodup⟩, hnew⟩
        refine ⟨hnodup, fun d hd hmem => ?_⟩
        rcases List.mem_cons.mp hmem with rfl | hmem
        · exact hc hd
        · exact hnew d (List.mem_cons_of_mem _ hd) hmem

/-- `validate` checks the size, or the default one, beside the rest. -/
theorem IntelPtConfig.validate_iff {config : IntelPtConfig} {pageSize : Nat}
    (hpage : isPowerOfTwo pageSize = true) :
    config.validate pageSize = .ok () ↔
      config.Usable ∧ ValidAux pageSize (config.auxBytesPerBuffer.getD defaultAuxBytes) ∧
        config.auxBytesPerBuffer.getD defaultAuxBytes ≤ config.maxTotalAuxBytes := by
  rw [← validateAuxBytes_iff hpage]
  have hcpus : (∀ cpus, config.cpus = some cpus → cpus ≠ [] ∧ cpus.Nodup) ↔
      ∀ cpus, config.cpus = some cpus → cpus ≠ [] ∧ repeatedCpu [] cpus = none := by
    refine forall_congr' fun cpus => forall_congr' fun _ => and_congr_right fun _ => ?_
    rw [repeatedCpu_eq_none]
    exact (and_iff_left fun c _ => List.not_mem_nil).symm
  have husable : config.Usable ↔ config.maxCaptureMs ≠ 0 ∧
      (∀ cpus, config.cpus = some cpus → cpus ≠ [] ∧ repeatedCpu [] cpus = none) ∧
      (config.addressFilters.any fun f => blank f.symbol) = false := by
    rw [← hcpus, List.any_eq_false]
    exact ⟨fun h => ⟨h.1, h.2, fun f hf => Bool.not_eq_true _ ▸ h.3 f hf⟩,
      fun h => ⟨h.1, h.2.1, fun f hf => Bool.not_eq_true _ ▸ h.2.2 f hf⟩⟩
  rw [husable]
  have hthrow : ∀ err : Error, (throw err : Result Unit) = .error err := fun _ => rfl
  -- every check by its outcome, in the order of the code
  unfold validate
  by_cases hcapture : config.maxCaptureMs = 0
  · simp [hcapture, hthrow, error_bind]
  cases haux : validateAuxBytes (config.auxBytesPerBuffer.getD defaultAuxBytes) pageSize with
  | error err => simp [hcapture, haux, error_bind]
  | ok =>
    have hrest : (if (config.addressFilters.any fun f => blank f.symbol) = true then
          (throw (.invalidArgument "address filter symbol must not be empty") : Result Unit) >>=
            fun _ => if config.maxTotalAuxBytes < config.auxBytesPerBuffer.getD defaultAuxBytes then
              throw (.new .unsupportedPtConfig
                "max_total_aux_bytes is smaller than aux_bytes_per_buffer") else pure ()
        else if config.maxTotalAuxBytes < config.auxBytesPerBuffer.getD defaultAuxBytes then
          throw (.new .unsupportedPtConfig
            "max_total_aux_bytes is smaller than aux_bytes_per_buffer") else pure ()) = .ok () ↔
        (config.addressFilters.any fun f => blank f.symbol) = false ∧
          config.auxBytesPerBuffer.getD defaultAuxBytes ≤ config.maxTotalAuxBytes := by
      by_cases hfilters : (config.addressFilters.any fun f => blank f.symbol) = true
      · rw [if_pos hfilters, hthrow, error_bind, hfilters]
        exact iff_of_false (fun h => by cases h) fun h => by cases h.1
      · rw [if_neg hfilters]
        by_cases hbudget : config.maxTotalAuxBytes < config.auxBytesPerBuffer.getD defaultAuxBytes
        · rw [if_pos hbudget]
          exact iff_of_false (fun h => by cases h) fun h => absurd h.2 (not_le.mpr hbudget)
        · rw [if_neg hbudget]
          exact iff_of_true rfl ⟨Bool.eq_false_iff.mpr hfilters, not_lt.mp hbudget⟩
    rw [and_assoc, and_assoc, and_iff_right hcapture, if_neg hcapture]
    dsimp only
    rw [haux, ok_bind]
    rcases hc : config.cpus with _ | _ | ⟨c, cpus⟩
    · refine hrest.trans ⟨fun h => ⟨fun cpus heq => (by cases heq), h.1, rfl, h.2⟩, fun h => ?_⟩
      exact ⟨h.2.1, h.2.2.2⟩
    · dsimp only
      rw [hthrow, error_bind]
      exact iff_of_false (fun h => by cases h) fun h => (h.1 [] rfl).1 rfl
    · dsimp only
      cases hrep : repeatedCpu [] (c :: cpus) with
      | some d =>
        dsimp only
        rw [hthrow, error_bind]
        refine iff_of_false (fun h => by cases h) fun h => ?_
        have hnone := (h.1 (c :: cpus) rfl).2
        rw [hrep] at hnone
        cases hnone
      | none =>
        refine hrest.trans ⟨fun h => ⟨fun cpus' heq => ?_, h.1, rfl, h.2⟩, fun h => ?_⟩
        · rw [← Option.some.inj heq]
          exact ⟨List.cons_ne_nil _ _, hrep⟩
        · exact ⟨h.2.1, h.2.2.2⟩

end Sizes

/-! ## One topology -/

section Compute

variable {n pageSize metaPages aux budget : Nat}

/-- A size that a topology of `n` rings can have. -/
def Fitting (n pageSize metaPages budget aux : Nat) : Prop :=
  n ≠ 0 ∧ ValidAux pageSize aux ∧ n * aux ≤ budget ∧ n * metaPages * pageSize < wordSize

/-- The suggestion overflows exactly for shares above `2^63`. -/
theorem suggestedAux_eq (hn : n ≠ 0) (budget pageSize : Nat) :
    suggestedAux n budget pageSize =
      if budget / n ≤ 2 ^ 63 then some (max (prevPow2 (budget / n)) pageSize) else none := by
  rw [suggestedAux, if_neg hn]
  exact if_congr nextPow2_lt_iff rfl rfl

theorem suggestedAux_isSome (pageSize : Nat) (h : budget / n ≤ 2 ^ 63) :
    ∃ v, suggestedAux n budget pageSize = some v := by
  by_cases hn : n = 0
  · exact ⟨pageSize, by rw [suggestedAux, if_pos hn]⟩
  · exact ⟨_, by rw [suggestedAux_eq hn, if_pos h]⟩

theorem compute_meta (hpage : 0 < pageSize) :
    ((checkedMul n metaPages).bind fun p => checkedMul p pageSize) =
      if n * metaPages * pageSize < wordSize then some (n * metaPages * pageSize) else none := by
  unfold checkedMul
  by_cases h : n * metaPages < wordSize
  · rw [if_pos h]
    rfl
  · have hle : n * metaPages ≤ n * metaPages * pageSize := Nat.le_mul_of_pos_right _ hpage
    rw [if_neg h, if_neg (by omega)]
    rfl

/-- `compute` has a topology exactly for a fitting size, and it overflows never. -/
theorem compute_spec (hpage : isPowerOfTwo pageSize = true) (hbudget : budget < wordSize)
    (n metaPages aux : Nat) :
    (Fitting n pageSize metaPages budget aux ∧
      ∃ top, AuxTopology.compute n pageSize metaPages aux budget = some (.ok top) ∧
        top.auxBytesPerBuffer = aux) ∨
    (¬ Fitting n pageSize metaPages budget aux ∧
      ∃ err, AuxTopology.compute n pageSize metaPages aux budget = some (.error err)) := by
  have hpos : 0 < pageSize := by
    obtain ⟨k, rfl⟩ := isPowerOfTwo_iff.mp hpage
    exact Nat.two_pow_pos k
  unfold AuxTopology.compute
  by_cases hn : n = 0
  · rw [if_pos hn]
    exact .inr ⟨fun h => h.1 hn, _, rfl⟩
  rw [if_neg hn]
  cases hvalid : validateAuxBytes aux pageSize with
  | error err =>
    refine .inr ⟨fun h => ?_, err, rfl⟩
    rw [(validateAuxBytes_iff hpage aux).mpr h.2.1] at hvalid
    cases hvalid
  | ok =>
    have haux : ValidAux pageSize aux := (validateAuxBytes_iff hpage aux).mp hvalid
    dsimp only
    rw [compute_meta hpos]
    unfold checkedMul
    by_cases hword : n * aux < wordSize
    · rw [if_pos hword]
      dsimp only
      by_cases hover : budget < n * aux
      · rw [if_pos hover]
        -- the share of a ring is below the size that was refused
        have hshare : budget / n ≤ 2 ^ 63 := by
          obtain ⟨k, rfl⟩ := haux.1
          have hlt : budget / n < 2 ^ k := Nat.div_lt_of_lt_mul hover
          have hk : 2 ^ k < 2 ^ (63 + 1) :=
            (Nat.le_mul_of_pos_left _ (Nat.pos_of_ne_zero hn)).trans_lt hword
          have hk' : k ≤ 63 := Nat.le_of_lt_succ ((Nat.pow_lt_pow_iff_right Nat.one_lt_two).mp hk)
          exact hlt.le.trans (Nat.pow_le_pow_right Nat.two_pos hk')
        obtain ⟨v, hv⟩ := suggestedAux_isSome pageSize hshare
        rw [hv]
        exact .inr ⟨fun h => absurd h.2.2.1 (not_le.mpr hover), _, rfl⟩
      · rw [if_neg hover]
        by_cases hmeta : n * metaPages * pageSize < wordSize
        · rw [if_pos hmeta]
          exact .inl ⟨⟨hn, haux, not_lt.mp hover, hmeta⟩, _, rfl, rfl⟩
        · rw [if_neg hmeta]
          exact .inr ⟨fun h => hmeta h.2.2.2, _, rfl⟩
    · rw [if_neg hword]
      exact .inr ⟨fun h => hword (h.2.2.1.trans_lt hbudget), _, rfl⟩

theorem compute_ok (hpage : isPowerOfTwo pageSize = true) (hbudget : budget < wordSize)
    (h : Fitting n pageSize metaPages budget aux) :
    ∃ top, AuxTopology.compute n pageSize metaPages aux budget = some (.ok top) ∧
      top.auxBytesPerBuffer = aux :=
  ((compute_spec hpage hbudget n metaPages aux).resolve_right fun hno => hno.1 h).2

theorem compute_error (hpage : isPowerOfTwo pageSize = true) (hbudget : budget < wordSize)
    (h : ¬ Fitting n pageSize metaPages budget aux) :
    ∃ err, AuxTopology.compute n pageSize metaPages aux budget = some (.error err) :=
  ((compute_spec hpage hbudget n metaPages aux).resolve_left fun hyes => h hyes.1).2

theorem fitting_of_compute (hpage : isPowerOfTwo pageSize = true) (hbudget : budget < wordSize)
    {top : AuxTopology}
    (h : AuxTopology.compute n pageSize metaPages aux budget = some (.ok top)) :
    Fitting n pageSize metaPages budget aux ∧ top.auxBytesPerBuffer = aux := by
  rcases compute_spec hpage hbudget n metaPages aux with ⟨hfit, top', heq, haux⟩ | ⟨-, err, heq⟩
  · rw [h] at heq
    cases heq
    exact ⟨hfit, haux⟩
  · rw [h] at heq
    cases heq

end Compute

/-! ## Choosing a size -/

namespace IntelPtConfig

/-- The largest size that is chosen for a ring: it depends on whether CPUs are listed. -/
def autoCap (config : IntelPtConfig) : Nat :=
  if config.cpus.isSome then maxAutoAuxBytes else defaultAuxBytes

/-- The share of a ring can be rounded up, where that is done first. -/
def ShareRounds (config : IntelPtConfig) (n : Nat) : Prop :=
  config.cpus = none ∨ config.maxTotalAuxBytes / n ≤ 2 ^ 63

section Choose

variable {config : IntelPtConfig} {n pageSize metaPages : Nat}

theorem default_le_autoCap (config : IntelPtConfig) : defaultAuxBytes ≤ config.autoCap := by
  unfold autoCap
  split
  · decide
  · exact Nat.le_refl _

theorem admissible_le_share {cap budget size : Nat} (hn : n ≠ 0)
    (h : Admissible pageSize n cap budget size) : size ≤ prevPow2 (budget / n) := by
  obtain ⟨⟨⟨k, rfl⟩, -⟩, -, hle⟩ := h
  exact pow_le_prevPow2 ((Nat.le_div_iff_mul_le (Nat.pos_of_ne_zero hn)).mpr hle)

/-- What is asked for first is valid, and what does not exceed the cap or the
share does not exceed it. -/
theorem requestedAux_spec (hpage : isPowerOfTwo pageSize = true)
    (hdefault : ValidAux pageSize defaultAuxBytes) (hnone : config.auxBytesPerBuffer = none)
    (hn : n ≠ 0) (hround : config.ShareRounds n) :
    ∃ r, config.requestedAux n pageSize = some r ∧ ValidAux pageSize r ∧ r ≤ config.autoCap ∧
      defaultAuxBytes ≤ r ∧
      (∀ size, Admissible pageSize n config.autoCap config.maxTotalAuxBytes size → size ≤ r) ∧
      (config.maxTotalAuxBytes / n < r → config.maxTotalAuxBytes / n < defaultAuxBytes) := by
  unfold requestedAux
  rw [hnone]
  unfold autoCap
  cases hcpus : config.cpus with
  | none => exact ⟨_, rfl, hdefault, Nat.le_refl _, Nat.le_refl _, fun size h => h.2.1, id⟩
  | some cpus =>
    rcases hround with hround | hround
    · rw [hround] at hcpus
      cases hcpus
    have hpage' := hdefault.page_le
    have hcaps : defaultAuxBytes ≤ maxAutoAuxBytes := by decide
    have hprev := prevPow2_le (config.maxTotalAuxBytes / n)
    -- a power of two between two others
    have hprevValid : defaultAuxBytes ≤ prevPow2 (config.maxTotalAuxBytes / n) →
        ValidAux pageSize (prevPow2 (config.maxTotalAuxBytes / n)) := by
      intro hbig
      have hpos := hdefault.pos.trans_le (hbig.trans hprev)
      rw [prevPow2_eq_pow hpos] at hbig ⊢
      exact validAux_of_le hpage (hpage'.trans hbig)
    have hmax : ValidAux pageSize maxAutoAuxBytes := by
      have hcap : maxAutoAuxBytes = 2 ^ 28 := rfl
      rw [hcap] at hcaps ⊢
      exact validAux_of_le hpage (hpage'.trans hcaps)
    have hshare := fun size (h : Admissible pageSize n maxAutoAuxBytes config.maxTotalAuxBytes size)
      => admissible_le_share hn h
    dsimp only
    rw [suggestedAux_eq hn, if_pos hround, Option.map_some]
    generalize prevPow2 (config.maxTotalAuxBytes / n) = prev at hprev hprevValid hshare
    refine ⟨_, rfl, ?_, Nat.min_le_right _ _, le_min (Nat.le_max_right _ _) hcaps,
      fun size h => le_min ?_ h.2.1, fun hlt => ?_⟩
    · have hwhich : min (max (max prev pageSize) defaultAuxBytes) maxAutoAuxBytes = maxAutoAuxBytes ∨
          min (max (max prev pageSize) defaultAuxBytes) maxAutoAuxBytes = defaultAuxBytes ∨
          defaultAuxBytes ≤ prev ∧
            min (max (max prev pageSize) defaultAuxBytes) maxAutoAuxBytes = prev := by
        omega
      rcases hwhich with heq | heq | ⟨hbig, heq⟩
      · rw [heq]
        exact hmax
      · rw [heq]
        exact hdefault
      · rw [heq]
        exact hprevValid hbig
    · exact (hshare size h).trans ((Nat.le_max_left _ _).trans (Nat.le_max_left _ _))
    · have hlt' := hlt.trans_le (Nat.min_le_left _ _)
      omega

/-- An omitted size is chosen as large as can be, if the arithmetic goes through. -/
theorem chooseTopology_omitted (hpage : isPowerOfTwo pageSize = true)
    (hbudget : config.maxTotalAuxBytes < wordSize) (hdefault : ValidAux pageSize defaultAuxBytes)
    (hnone : config.auxBytesPerBuffer = none) (hn : n ≠ 0)
    (hmeta : n * metaPages * pageSize < wordSize) (hround : config.ShareRounds n) :
    (∃ top, config.chooseTopology n pageSize metaPages = some (.ok top) ∧
      IsGreatest {size | Admissible pageSize n config.autoCap config.maxTotalAuxBytes size}
        top.auxBytesPerBuffer) ∨
    (∃ err, config.chooseTopology n pageSize metaPages = some (.error err)) ∧
      ∀ size, ¬ Admissible pageSize n config.autoCap config.maxTotalAuxBytes size := by
  have hpos := Nat.pos_of_ne_zero hn
  have hshare : ∀ size, n * size ≤ config.maxTotalAuxBytes ↔ size ≤ config.maxTotalAuxBytes / n :=
    fun size => by rw [Nat.le_div_iff_mul_le hpos, Nat.mul_comm]
  obtain ⟨r, hr, hvalid, hcap, hmin, hgreatest, hsmall⟩ :=
    requestedAux_spec hpage hdefault hnone hn hround
  unfold chooseTopology
  dsimp only
  rw [hr, Option.bind_some]
  by_cases hfits : Fitting n pageSize metaPages config.maxTotalAuxBytes r
  · obtain ⟨top, htop, haux⟩ := compute_ok hpage hbudget hfits
    rw [htop]
    refine .inl ⟨top, rfl, ?_⟩
    rw [haux]
    exact ⟨⟨hvalid, hcap, by rw [Nat.mul_comm]; exact hfits.2.2.1⟩, fun size h => hgreatest size h⟩
  · -- the share is smaller than the default size: try the largest that it holds
    have hper : config.maxTotalAuxBytes / n < defaultAuxBytes := by
      refine hsmall (not_le.mp fun hle => hfits ⟨hn, hvalid, (hshare r).mpr hle, hmeta⟩)
    obtain ⟨err, herr⟩ := compute_error hpage hbudget hfits
    have hword : config.maxTotalAuxBytes / n ≤ 2 ^ 63 := hper.le.trans (by decide)
    rw [herr]
    dsimp only
    rw [hnone, Option.isSome_none, if_neg Bool.false_ne_true, suggestedAux_eq hn, if_pos hword,
      Option.bind_some]
    obtain ⟨j, hj⟩ := isPowerOfTwo_iff.mp hpage
    by_cases hle : pageSize ≤ config.maxTotalAuxBytes / n
    · have hprev : pageSize ≤ prevPow2 (config.maxTotalAuxBytes / n) := by
        rw [hj] at hle ⊢
        exact pow_le_prevPow2 hle
      have hperpos : 0 < config.maxTotalAuxBytes / n := by
        rw [hj] at hle
        exact (Nat.two_pow_pos j).trans_le hle
      have hvalid' : ValidAux pageSize (prevPow2 (config.maxTotalAuxBytes / n)) := by
        rw [prevPow2_eq_pow hperpos] at hprev ⊢
        exact validAux_of_le hpage hprev
      have hfits' : Fitting n pageSize metaPages config.maxTotalAuxBytes
          (prevPow2 (config.maxTotalAuxBytes / n)) :=
        ⟨hn, hvalid', (hshare _).mpr (prevPow2_le _), hmeta⟩
      obtain ⟨top, htop, haux⟩ := compute_ok hpage hbudget hfits'
      rw [max_eq_left hprev, (validateAuxBytes_iff hpage _).mpr hvalid']
      refine .inl ⟨top, htop, ?_⟩
      rw [haux]
      refine ⟨⟨hvalid', ?_, by rw [Nat.mul_comm]; exact hfits'.2.2.1⟩, fun size h => ?_⟩
      · exact ((prevPow2_le _).trans hper.le).trans (default_le_autoCap config)
      · exact admissible_le_share hn h
    · have hnofit : ∀ size, ValidAux pageSize size → ¬ n * size ≤ config.maxTotalAuxBytes :=
        fun size hsize hfit => hle (hsize.page_le.trans ((hshare size).mp hfit))
      refine .inr ⟨?_, fun size h => hnofit size h.1 (by rw [Nat.mul_comm]; exact h.2.2)⟩
      cases hval : validateAuxBytes (max (prevPow2 (config.maxTotalAuxBytes / n)) pageSize)
        pageSize with
      | error err => exact ⟨err, rfl⟩
      | ok => exact compute_error hpage hbudget fun h => hnofit _ h.2.1 h.2.2.1

/-- A topology is one of a fitting size, and for an omitted size the share of a
ring could be rounded where that was done. -/
theorem chooseTopology_ok (hpage : isPowerOfTwo pageSize = true)
    (hbudget : config.maxTotalAuxBytes < wordSize) {top : AuxTopology}
    (h : config.chooseTopology n pageSize metaPages = some (.ok top)) :
    Fitting n pageSize metaPages config.maxTotalAuxBytes top.auxBytesPerBuffer ∧
      (config.auxBytesPerBuffer = none → config.ShareRounds n) ∧
      ∀ v, config.auxBytesPerBuffer = some v → top.auxBytesPerBuffer = v := by
  unfold chooseTopology at h
  dsimp only at h
  cases hr : config.requestedAux n pageSize with
  | none =>
    rw [hr] at h
    cases h
  | some r =>
    rw [hr, Option.bind_some] at h
    have hround : config.auxBytesPerBuffer = none → config.ShareRounds n := by
      intro hnone
      unfold requestedAux at hr
      rw [hnone] at hr
      cases hcpus : config.cpus with
      | none => exact .inl hcpus
      | some cpus =>
        rw [hcpus] at hr
        dsimp only at hr
        refine .inr (not_lt.mp fun hlt => ?_)
        by_cases hn : n = 0
        · rw [hn, Nat.div_zero] at hlt
          exact absurd hlt (Nat.not_lt_zero _)
        · rw [suggestedAux_eq hn, if_neg (not_le.mpr hlt)] at hr
          cases hr
    cases hcompute : AuxTopology.compute n pageSize metaPages r config.maxTotalAuxBytes with
    | none =>
      rw [hcompute] at h
      cases h
    | some res =>
      rw [hcompute] at h
      cases res with
      | ok top' =>
        obtain rfl : top' = top := by cases h; rfl
        obtain ⟨hfits, haux⟩ := fitting_of_compute hpage hbudget hcompute
        rw [haux]
        refine ⟨hfits, hround, fun v hv => ?_⟩
        unfold requestedAux at hr
        rw [hv] at hr
        exact (Option.some.inj hr).symm
      | error err =>
        dsimp only at h
        -- only an omitted size is tried again, with the suggested one
        cases hexplicit : config.auxBytesPerBuffer with
        | some v =>
          rw [hexplicit] at h
          cases h
        | none =>
          rw [hexplicit, Option.isSome_none, if_neg Bool.false_ne_true, Option.bind_eq_some_iff] at h
          obtain ⟨suggest, -, h⟩ := h
          cases hval : validateAuxBytes suggest pageSize with
          | error err =>
            rw [hval] at h
            cases h
          | ok =>
            rw [hval] at h
            obtain ⟨hfits, haux⟩ := fitting_of_compute hpage hbudget h
            rw [haux]
            exact ⟨hfits, fun _ => hround hexplicit, fun v hv => by cases hv⟩

/-- With an explicit size the choice is whether it fits. -/
theorem chooseTopology_explicit {v : Nat} (h : config.auxBytesPerBuffer = some v) :
    config.chooseTopology n pageSize metaPages =
      AuxTopology.compute n pageSize metaPages v config.maxTotalAuxBytes := by
  unfold chooseTopology requestedAux
  dsimp only
  rw [h]
  dsimp only
  rw [Option.bind_some]
  cases AuxTopology.compute n pageSize metaPages v config.maxTotalAuxBytes with
  | none => rfl
  | some res => cases res <;> rfl

/-- Only an omitted size overflows, and a size can be chosen then. -/
theorem chooseTopology_none (hpage : isPowerOfTwo pageSize = true)
    (hbudget : config.maxTotalAuxBytes < wordSize)
    (hdefault : ValidAux pageSize (config.auxBytesPerBuffer.getD defaultAuxBytes))
    (h : config.chooseTopology n pageSize metaPages = none) :
    config.auxBytesPerBuffer = none ∧
      Admissible pageSize n config.autoCap config.maxTotalAuxBytes defaultAuxBytes := by
  cases hexplicit : config.auxBytesPerBuffer with
  | some v =>
    rw [chooseTopology_explicit hexplicit] at h
    rcases compute_spec hpage hbudget n metaPages v with ⟨-, top, heq, -⟩ | ⟨-, err, heq⟩
    · rw [h] at heq
      cases heq
    · rw [h] at heq
      cases heq
  | none =>
    rw [hexplicit] at hdefault
    refine ⟨rfl, hdefault, default_le_autoCap config, ?_⟩
    -- a share that overflows holds the default size
    by_contra hover
    have hn : n ≠ 0 := by
      rintro rfl
      exact hover (Nat.zero_le _)
    have hper : config.maxTotalAuxBytes / n ≤ 2 ^ 63 := by
      have hlt : config.maxTotalAuxBytes / n < defaultAuxBytes :=
        not_le.mp fun hle => hover ((Nat.le_div_iff_mul_le (Nat.pos_of_ne_zero hn)).mp hle)
      exact hlt.le.trans (by decide)
    obtain ⟨r, hr, -⟩ := requestedAux_spec hpage hdefault hexplicit hn (.inr hper)
    obtain ⟨suggest, hsuggest⟩ := suggestedAux_isSome pageSize hper
    have hcompute : ∀ aux, AuxTopology.compute n pageSize metaPages aux config.maxTotalAuxBytes ≠
        none := by
      intro aux heq
      rcases compute_spec hpage hbudget n metaPages aux with ⟨-, top, hok, -⟩ | ⟨-, err, herr⟩
      · rw [heq] at hok
        cases hok
      · rw [heq] at herr
        cases herr
    unfold chooseTopology at h
    dsimp only at h
    rw [hr, Option.bind_some] at h
    split at h
    next heq => exact hcompute _ heq
    next => cases h
    next =>
      rw [hexplicit, Option.isSome_none, if_neg Bool.false_ne_true, hsuggest, Option.bind_some] at h
      split at h
      next => cases h
      next => exact hcompute _ h

end Choose

end IntelPtConfig

/-! ## Fitting a configuration -/

/-- What a function that fits the rings of a configuration is to do, with `n`
rings and a cap for a size that is omitted: it does not overflow, leaves the
configuration as it is on an error, and otherwise gives it a size that is valid
and within the budget on all rings: the explicit one, or the largest there is.
It finds one where one can be chosen, and the same one again. -/
structure Sized (fit : IntelPtConfig → Option (Result AuxTopology × IntelPtConfig))
    (pageSize n cap : Nat) (usable : Prop) (config : IntelPtConfig) : Prop where
  noOverflow : fit config ≠ none
  unchanged : ∀ err config', fit config = some (.error err, config') → config' = config
  sound : ∀ top config', fit config = some (.ok top, config') →
    config'.auxBytesPerBuffer = some top.auxBytesPerBuffer ∧
      ValidAux pageSize top.auxBytesPerBuffer ∧
      top.auxBytesPerBuffer * n ≤ config.maxTotalAuxBytes
  explicit : ∀ v top config', config.auxBytesPerBuffer = some v →
    fit config = some (.ok top, config') → top.auxBytesPerBuffer = v
  largest : config.auxBytesPerBuffer = none → ∀ top config', fit config = some (.ok top, config') →
    IsGreatest {size | Admissible pageSize n cap config.maxTotalAuxBytes size}
      top.auxBytesPerBuffer
  complete : config.auxBytesPerBuffer = none → usable →
    (∃ size, Admissible pageSize n cap config.maxTotalAuxBytes size) →
    ∃ top config', fit config = some (.ok top, config')
  stable : ∀ top config', fit config = some (.ok top, config') →
    ∃ top' config'', fit config' = some (.ok top', config'') ∧
      top'.auxBytesPerBuffer = top.auxBytesPerBuffer ∧
      config''.auxBytesPerBuffer = config'.auxBytesPerBuffer

/-- An omitted size passes `validate` as the default one does. -/
def DefaultPasses (pageSize : Nat) (config : IntelPtConfig) : Prop :=
  ValidAux pageSize defaultAuxBytes ∧ defaultAuxBytes ≤ config.maxTotalAuxBytes

namespace IntelPtConfig

/-- The number of rings of `fit_aux_topology`. -/
def rings (config : IntelPtConfig) (onlineCpus : Nat) : Nat :=
  (config.cpus.map List.length).getD onlineCpus

/-- The CPUs that are listed are online. -/
def AllOnline (config : IntelPtConfig) (onlineCpus : Nat) : Prop :=
  ∀ cpus, config.cpus = some cpus → ∀ c ∈ cpus, c < onlineCpus

section Fit

variable {config : IntelPtConfig} {onlineCpus pageSize metaPages : Nat}

theorem ringCount_ok : config.ringCount onlineCpus = .ok n ↔
    config.AllOnline onlineCpus ∧ n = config.rings onlineCpus := by
  unfold ringCount AllOnline rings
  cases config.cpus with
  | none =>
    refine ⟨fun h => ⟨fun cpus heq => (by cases heq), ?_⟩, fun h => ?_⟩
    · cases h
      rfl
    · rw [h.2]
      rfl
  | some cpus =>
    dsimp only
    cases hbad : cpus.find? fun c => decide (onlineCpus ≤ c) with
    | some bad =>
      refine iff_of_false (fun h => by cases h) fun h => ?_
      have hle := List.find?_some hbad
      exact absurd (h.1 cpus rfl bad (List.mem_of_find?_eq_some hbad))
        (not_lt.mpr (of_decide_eq_true hle))
    | none =>
      have hall := List.find?_eq_none.mp hbad
      refine ⟨fun h => ⟨fun cpus' heq c hc => ?_, ?_⟩, fun h => ?_⟩
      · rw [← Option.some.inj heq] at hc
        exact not_le.mp fun hle => hall c hc (decide_eq_true hle)
      · cases h
        rfl
      · rw [h.2]
        rfl

/-- A configuration with the size that was found. -/
def withSize (config : IntelPtConfig) (size : Nat) : IntelPtConfig :=
  { config with
    auxBytesAuto := config.auxBytesAuto || config.auxBytesPerBuffer.isNone
    auxBytesPerBuffer := some size }

/-- When `fit_aux_topology` succeeds, and what it leaves. -/
theorem fitAuxTopology_ok {top : AuxTopology} {config' : IntelPtConfig} :
    config.fitAuxTopology onlineCpus pageSize metaPages = some (.ok top, config') ↔
      config.validate pageSize = .ok () ∧ config.AllOnline onlineCpus ∧
      config.chooseTopology (config.rings onlineCpus) pageSize metaPages = some (.ok top) ∧
      config' = config.withSize top.auxBytesPerBuffer := by
  unfold fitAuxTopology
  cases hvalid : config.validate pageSize with
  | error err => exact iff_of_false (fun h => by cases h) fun h => by cases h.1
  | ok =>
    dsimp only
    cases hcount : config.ringCount onlineCpus with
    | error err =>
      refine iff_of_false (fun h => by cases h) fun h => ?_
      rw [ringCount_ok.mpr ⟨h.2.1, rfl⟩] at hcount
      cases hcount
    | ok n =>
      obtain ⟨honline, rfl⟩ := ringCount_ok.mp hcount
      dsimp only
      rw [Option.map_eq_some_iff]
      constructor
      · rintro ⟨res, hres, hsettle⟩
        cases res with
        | error err => cases hsettle
        | ok top' =>
          cases hsettle
          exact ⟨rfl, honline, hres, rfl⟩
      · rintro ⟨-, -, hres, rfl⟩
        exact ⟨_, hres, rfl⟩

/-- Where it does not, the configuration is left as it is. -/
theorem fitAuxTopology_error {err : Error} {config' : IntelPtConfig}
    (h : config.fitAuxTopology onlineCpus pageSize metaPages = some (.error err, config')) :
    config' = config := by
  unfold fitAuxTopology at h
  split at h
  · cases h
    rfl
  · split at h
    · cases h
      rfl
    · obtain ⟨res, -, hsettle⟩ := Option.map_eq_some_iff.mp h
      cases res with
      | error err => cases hsettle; rfl
      | ok top => cases hsettle

/-- It overflows where the choice does. -/
theorem fitAuxTopology_none
    (h : config.fitAuxTopology onlineCpus pageSize metaPages = none) :
    config.validate pageSize = .ok () ∧ config.AllOnline onlineCpus ∧
      config.chooseTopology (config.rings onlineCpus) pageSize metaPages = none := by
  unfold fitAuxTopology at h
  split at h
  next => cases h
  next hvalid =>
    split at h
    next => cases h
    next n hcount =>
      obtain ⟨honline, rfl⟩ := ringCount_ok.mp hcount
      exact ⟨hvalid, honline, Option.map_eq_none_iff.mp h⟩

/-- The configuration that was fitted passes `validate` with its size. -/
theorem withSize_validate (hpage : isPowerOfTwo pageSize = true) (h : config.Usable) {size : Nat}
    (hvalid : ValidAux pageSize size) (hle : size ≤ config.maxTotalAuxBytes) :
    (config.withSize size).validate pageSize = .ok () :=
  (validate_iff hpage).mpr ⟨⟨h.capture, h.cpus, h.filters⟩, hvalid, hle⟩

/-- `fit_aux_topology` does what it is to do exactly when a size that is omitted
and could be chosen passes the check of the default one, there is a ring, the
metadata does not overflow, and the share of a ring can be rounded. -/
theorem fitAuxTopology_sized_iff (hpage : isPowerOfTwo pageSize = true)
    (hbudget : config.maxTotalAuxBytes < wordSize) :
    Sized (fun c => c.fitAuxTopology onlineCpus pageSize metaPages) pageSize
        (config.rings onlineCpus) config.autoCap
        (config.Usable ∧ config.AllOnline onlineCpus) config ↔
      (config.auxBytesPerBuffer = none → config.Usable ∧ config.AllOnline onlineCpus →
        (∃ size, Admissible pageSize (config.rings onlineCpus) config.autoCap
          config.maxTotalAuxBytes size) →
        DefaultPasses pageSize config ∧ config.rings onlineCpus ≠ 0 ∧
          config.rings onlineCpus * metaPages * pageSize < wordSize ∧
          config.ShareRounds (config.rings onlineCpus)) := by
  constructor
  · intro hsized hnone husable hsize
    obtain ⟨top, config', hfit⟩ := hsized.complete hnone husable hsize
    obtain ⟨hvalid, -, hchoose, -⟩ := fitAuxTopology_ok.mp hfit
    obtain ⟨-, hdefault⟩ := (validate_iff hpage).mp hvalid
    rw [hnone] at hdefault
    obtain ⟨⟨hn, -, -, hmeta⟩, hround, -⟩ := chooseTopology_ok hpage hbudget hchoose
    exact ⟨hdefault, hn, hmeta, hround hnone⟩
  · intro hcond
    have homitted : config.validate pageSize = .ok () → config.AllOnline onlineCpus →
        config.auxBytesPerBuffer = none →
        (∃ size, Admissible pageSize (config.rings onlineCpus) config.autoCap
          config.maxTotalAuxBytes size) →
        ∃ top, config.chooseTopology (config.rings onlineCpus) pageSize metaPages = some (.ok top) ∧
          IsGreatest {size | Admissible pageSize (config.rings onlineCpus) config.autoCap
            config.maxTotalAuxBytes size} top.auxBytesPerBuffer := by
      intro hvalid honline hnone hsize
      obtain ⟨husable, -⟩ := (validate_iff hpage).mp hvalid
      obtain ⟨hdefault, hn, hmeta, hround⟩ := hcond hnone ⟨husable, honline⟩ hsize
      refine (chooseTopology_omitted hpage hbudget hdefault.1 hnone hn hmeta hround).resolve_right ?_
      rintro ⟨-, hnosize⟩
      obtain ⟨size, hsize⟩ := hsize
      exact hnosize size hsize
    refine ⟨fun h => ?_, fun err config' h => fitAuxTopology_error h, fun top config' h => ?_,
      fun v top config' hv h => ?_, fun hnone top config' h => ?_, fun hnone husable hsize => ?_,
      fun top config' h => ?_⟩
    · obtain ⟨hvalid, honline, hchoose⟩ := fitAuxTopology_none h
      obtain ⟨hnone, hadm⟩ := chooseTopology_none hpage hbudget
        ((validate_iff hpage).mp hvalid).2.1 hchoose
      obtain ⟨top, hok, -⟩ := homitted hvalid honline hnone ⟨_, hadm⟩
      rw [hchoose] at hok
      cases hok
    · obtain ⟨-, -, hchoose, rfl⟩ := fitAuxTopology_ok.mp h
      obtain ⟨hfits, -, -⟩ := chooseTopology_ok hpage hbudget hchoose
      exact ⟨rfl, hfits.2.1, by rw [Nat.mul_comm]; exact hfits.2.2.1⟩
    · obtain ⟨-, -, hchoose, -⟩ := fitAuxTopology_ok.mp h
      exact (chooseTopology_ok hpage hbudget hchoose).2.2 v hv
    · obtain ⟨hvalid, honline, hchoose, -⟩ := fitAuxTopology_ok.mp h
      obtain ⟨-, hdefault⟩ := (validate_iff hpage).mp hvalid
      rw [hnone] at hdefault
      obtain ⟨⟨hn, -, -, hmeta⟩, hround, -⟩ := chooseTopology_ok hpage hbudget hchoose
      rcases chooseTopology_omitted hpage hbudget hdefault.1 hnone hn hmeta (hround hnone) with
        ⟨top', hok, hgreatest⟩ | ⟨⟨err, herr⟩, -⟩
      · rw [hchoose] at hok
        cases hok
        exact hgreatest
      · rw [hchoose] at herr
        cases herr
    · obtain ⟨hdefault, -⟩ := hcond hnone husable hsize
      have hvalid : config.validate pageSize = .ok () := by
        refine (validate_iff hpage).mpr ⟨husable.1, ?_⟩
        rw [hnone]
        exact hdefault
      obtain ⟨top, hok, -⟩ := homitted hvalid husable.2 hnone hsize
      exact ⟨top, _, fitAuxTopology_ok.mpr ⟨hvalid, husable.2, hok, rfl⟩⟩
    · obtain ⟨hvalid, honline, hchoose, rfl⟩ := fitAuxTopology_ok.mp h
      obtain ⟨husable, -⟩ := (validate_iff hpage).mp hvalid
      obtain ⟨hfits, -, -⟩ := chooseTopology_ok hpage hbudget hchoose
      have hle : top.auxBytesPerBuffer ≤ config.maxTotalAuxBytes :=
        (Nat.le_mul_of_pos_left _ (Nat.pos_of_ne_zero hfits.1)).trans hfits.2.2.1
      -- the size is explicit now, and fits
      obtain ⟨top', hok, haux⟩ := compute_ok hpage hbudget hfits
      refine ⟨top', _, fitAuxTopology_ok.mpr ⟨withSize_validate hpage husable hfits.2.1 hle,
        honline, ?_, rfl⟩, haux, congrArg some haux⟩
      exact (chooseTopology_explicit rfl).trans hok

/-! ### One ring a thread -/

/-- The size for the direct recorder, where `validate` passes. -/
theorem directAux_spec (hpage : isPowerOfTwo pageSize = true)
    (h : ValidAux pageSize (config.auxBytesPerBuffer.getD defaultAuxBytes))
    (hle : config.auxBytesPerBuffer.getD defaultAuxBytes ≤ config.maxTotalAuxBytes) :
    ∃ aux, config.directAux = some aux ∧ ValidAux pageSize aux ∧ aux ≤ config.maxTotalAuxBytes ∧
      (∀ v, config.auxBytesPerBuffer = some v → aux = v) ∧
      (config.auxBytesPerBuffer = none →
        IsGreatest {size | Admissible pageSize 1 defaultDirectAuxBytes config.maxTotalAuxBytes size}
          aux) := by
  unfold directAux
  dsimp only
  cases hexplicit : config.auxBytesPerBuffer with
  | some v =>
    rw [hexplicit] at h hle
    have hvalid : ValidAux pageSize v := h
    have hv : v ≤ config.maxTotalAuxBytes := hle
    rw [Option.getD_some, min_eq_left hv, if_pos (isPowerOfTwo_iff.mpr hvalid.1)]
    exact ⟨v, rfl, hvalid, hv, fun w hw => Option.some.inj hw, fun hnone => by cases hnone⟩
  | none =>
    rw [hexplicit] at h hle
    rw [Option.getD_none]
    have hmin : defaultAuxBytes ≤ min defaultDirectAuxBytes config.maxTotalAuxBytes :=
      le_min (by decide) hle
    have hcap : min defaultDirectAuxBytes config.maxTotalAuxBytes ≤ defaultDirectAuxBytes :=
      Nat.min_le_left _ _
    have hmax : min defaultDirectAuxBytes config.maxTotalAuxBytes ≤ config.maxTotalAuxBytes :=
      Nat.min_le_right _ _
    have hbound : ∀ size, Admissible pageSize 1 defaultDirectAuxBytes config.maxTotalAuxBytes size →
        size ≤ min defaultDirectAuxBytes config.maxTotalAuxBytes := by
      rintro size ⟨-, hsize, hfits⟩
      rw [Nat.mul_one] at hfits
      exact le_min hsize hfits
    generalize min defaultDirectAuxBytes config.maxTotalAuxBytes = m at hmin hcap hmax hbound
    by_cases hpow : isPowerOfTwo m = true
    · obtain ⟨k, rfl⟩ := isPowerOfTwo_iff.mp hpow
      have hvalid := validAux_of_le hpage (h.page_le.trans hmin)
      rw [if_pos hpow]
      refine ⟨_, rfl, hvalid, hmax, fun v hv => (by cases hv), fun _ => ⟨⟨hvalid, hcap, ?_⟩, hbound⟩⟩
      rw [Nat.mul_one]
      exact hmax
    · have hpos : 0 < m := h.pos.trans_le hmin
      have hlog : 2 ^ m.log2 ≤ m := Nat.log2_self_le hpos.ne'
      have hvalid := validAux_of_le hpage (h.page_le.trans (pow_le_log2 (k := 22) hmin))
      rw [if_neg hpow, if_neg hpos.ne']
      refine ⟨_, rfl, hvalid, hlog.trans hmax, fun v hv => (by cases hv),
        fun _ => ⟨⟨hvalid, hlog.trans hcap, ?_⟩, fun size hsize => ?_⟩⟩
      · rw [Nat.mul_one]
        exact hlog.trans hmax
      · have hle' := hbound size hsize
        obtain ⟨⟨⟨j, rfl⟩, -⟩, -⟩ := hsize
        exact pow_le_log2 hle'

/-- Where `validate` passes there is a size. -/
theorem fitAuxPerThread_of_validate (metaPages : Nat) (hpage : isPowerOfTwo pageSize = true)
    (h : config.validate pageSize = .ok ()) :
    ∃ aux top, config.directAux = some aux ∧ top.auxBytesPerBuffer = aux ∧
      config.fitAuxPerThread pageSize metaPages = some (.ok top, config.withSize aux) := by
  obtain ⟨-, hvalid, hle⟩ := (validate_iff hpage).mp h
  obtain ⟨aux, haux, hvalid', -⟩ := directAux_spec hpage hvalid hle
  unfold fitAuxPerThread
  rw [h, haux]
  dsimp only
  rw [Option.map_some, (validateAuxBytes_iff hpage aux).mpr hvalid']
  exact ⟨aux, _, rfl, rfl, rfl⟩

theorem fitAuxPerThread_ok (hpage : isPowerOfTwo pageSize = true) {top : AuxTopology}
    {config' : IntelPtConfig}
    (h : config.fitAuxPerThread pageSize metaPages = some (.ok top, config')) :
    config.validate pageSize = .ok () ∧ config.directAux = some top.auxBytesPerBuffer ∧
      config' = config.withSize top.auxBytesPerBuffer := by
  cases hvalid : config.validate pageSize with
  | error err =>
    unfold fitAuxPerThread at h
    rw [hvalid] at h
    cases h
  | ok =>
    obtain ⟨aux, top', haux, htop, heq⟩ :=
      fitAuxPerThread_of_validate metaPages hpage hvalid
    rw [h] at heq
    cases heq
    rw [htop]
    exact ⟨rfl, haux, rfl⟩

/-- `fit_aux_per_thread` does what it is to do exactly when a size that is
omitted and could be chosen passes the check of the default one. -/
theorem fitAuxPerThread_sized_iff (hpage : isPowerOfTwo pageSize = true) :
    Sized (fun c => c.fitAuxPerThread pageSize metaPages) pageSize 1 defaultDirectAuxBytes
        config.Usable config ↔
      (config.auxBytesPerBuffer = none → config.Usable →
        (∃ size, Admissible pageSize 1 defaultDirectAuxBytes config.maxTotalAuxBytes size) →
        DefaultPasses pageSize config) := by
  have hspec : config.validate pageSize = .ok () →
      ∃ aux, config.directAux = some aux ∧ ValidAux pageSize aux ∧ aux ≤ config.maxTotalAuxBytes ∧
        (∀ v, config.auxBytesPerBuffer = some v → aux = v) ∧
        (config.auxBytesPerBuffer = none → IsGreatest {size | Admissible pageSize 1
          defaultDirectAuxBytes config.maxTotalAuxBytes size} aux) := by
    intro hvalid
    obtain ⟨-, hvalid, hle⟩ := (validate_iff hpage).mp hvalid
    exact directAux_spec hpage hvalid hle
  have hok : ∀ top config', config.fitAuxPerThread pageSize metaPages = some (.ok top, config') →
      config.Usable ∧ config' = config.withSize top.auxBytesPerBuffer ∧
        ValidAux pageSize top.auxBytesPerBuffer ∧
        top.auxBytesPerBuffer ≤ config.maxTotalAuxBytes ∧
        (∀ v, config.auxBytesPerBuffer = some v → top.auxBytesPerBuffer = v) ∧
        (config.auxBytesPerBuffer = none → IsGreatest {size | Admissible pageSize 1
          defaultDirectAuxBytes config.maxTotalAuxBytes size} top.auxBytesPerBuffer) := by
    intro top config' h
    obtain ⟨hvalid, haux, rfl⟩ := fitAuxPerThread_ok hpage h
    obtain ⟨aux, haux', hspec⟩ := hspec hvalid
    rw [haux] at haux'
    rw [Option.some.inj haux']
    exact ⟨((validate_iff hpage).mp hvalid).1, rfl, hspec⟩
  constructor
  · intro hsized hnone husable hsize
    obtain ⟨top, config', hfit⟩ := hsized.complete hnone husable hsize
    obtain ⟨-, hdefault⟩ := (validate_iff hpage).mp (fitAuxPerThread_ok hpage hfit).1
    rw [hnone] at hdefault
    exact hdefault
  · intro hcond
    refine ⟨fun h => ?_, fun err config' h => ?_, fun top config' h => ?_,
      fun v top config' hv h => (hok top config' h).2.2.2.2.1 v hv,
      fun hnone top config' h => (hok top config' h).2.2.2.2.2 hnone,
      fun hnone husable hsize => ?_, fun top config' h => ?_⟩
    · -- no overflow
      cases hvalid : config.validate pageSize with
      | error err =>
        unfold fitAuxPerThread at h
        rw [hvalid] at h
        cases h
      | ok =>
        obtain ⟨aux, top, -, -, heq⟩ :=
          fitAuxPerThread_of_validate metaPages hpage hvalid
        rw [h] at heq
        cases heq
    · -- an error leaves the configuration as it was
      cases hvalid : config.validate pageSize with
      | error err =>
        unfold fitAuxPerThread at h
        rw [hvalid] at h
        cases h
        rfl
      | ok =>
        obtain ⟨aux, top, -, -, heq⟩ :=
          fitAuxPerThread_of_validate metaPages hpage hvalid
        rw [h] at heq
        cases heq
    · obtain ⟨-, rfl, hvalid, hle, -⟩ := hok top config' h
      exact ⟨rfl, hvalid, by rw [Nat.mul_one]; exact hle⟩
    · -- where a size can be chosen, one is
      have hvalid : config.validate pageSize = .ok () := by
        refine (validate_iff hpage).mpr ⟨husable, ?_⟩
        rw [hnone]
        exact hcond hnone husable hsize
      obtain ⟨aux, top, -, -, heq⟩ :=
        fitAuxPerThread_of_validate metaPages hpage hvalid
      exact ⟨top, _, heq⟩
    · -- the chosen size passes as an explicit one, and is kept
      obtain ⟨husable, rfl, hvalid, hle, -⟩ := hok top config' h
      have hagain := withSize_validate hpage husable hvalid hle
      obtain ⟨aux, top', haux, htop, heq⟩ :=
        fitAuxPerThread_of_validate metaPages hpage hagain
      obtain ⟨-, hvalid', hle'⟩ := (validate_iff hpage).mp hagain
      obtain ⟨aux', haux', -, -, hsame, -⟩ := directAux_spec hpage hvalid' hle'
      rw [haux] at haux'
      have heq' : aux = top.auxBytesPerBuffer := by
        rw [Option.some.inj haux']
        exact hsame _ rfl
      exact ⟨top', _, heq, htop.trans heq', congrArg some heq'⟩

end Fit

/-- Both functions size the rings of a configuration as they are to exactly when
the size is explicit, or a size that could be chosen passes the check of the
default one and nothing overflows on the way. -/
theorem sized_iff (config : IntelPtConfig) (onlineCpus pageSize metaPages : Nat)
    (hpage : isPowerOfTwo pageSize = true) (hbudget : config.maxTotalAuxBytes < wordSize) :
    (Sized (fun c => c.fitAuxTopology onlineCpus pageSize metaPages) pageSize
        (config.rings onlineCpus) config.autoCap
        (config.Usable ∧ config.AllOnline onlineCpus) config ∧
      Sized (fun c => c.fitAuxPerThread pageSize metaPages) pageSize 1 defaultDirectAuxBytes
        config.Usable config) ↔
    (config.auxBytesPerBuffer = none → config.Usable ∧ config.AllOnline onlineCpus →
      (∃ size, Admissible pageSize (config.rings onlineCpus) config.autoCap
        config.maxTotalAuxBytes size) →
      DefaultPasses pageSize config ∧ config.rings onlineCpus ≠ 0 ∧
        config.rings onlineCpus * metaPages * pageSize < wordSize ∧
        config.ShareRounds (config.rings onlineCpus)) ∧
    (config.auxBytesPerBuffer = none → config.Usable →
      (∃ size, Admissible pageSize 1 defaultDirectAuxBytes config.maxTotalAuxBytes size) →
      DefaultPasses pageSize config) :=
  and_congr (fitAuxTopology_sized_iff hpage hbudget) (fitAuxPerThread_sized_iff hpage)

/-! ### A small budget -/

/-- No size, and 2 MiB for all rings. -/
def smallBudget : IntelPtConfig := { IntelPtConfig.default with maxTotalAuxBytes := 2 * 1024 * 1024 }

theorem smallBudget_usable : smallBudget.Usable :=
  ⟨by decide, fun cpus h => (by cases h), fun f hf => absurd hf List.not_mem_nil⟩

theorem sized_iff_small :
    (Sized (fun c => c.fitAuxTopology 1 4096 16) 4096 (smallBudget.rings 1) smallBudget.autoCap
        (smallBudget.Usable ∧ smallBudget.AllOnline 1) smallBudget ∧
      Sized (fun c => c.fitAuxPerThread 4096 16) 4096 1 defaultDirectAuxBytes
        smallBudget.Usable smallBudget) ↔
    (smallBudget.auxBytesPerBuffer = none → smallBudget.Usable ∧ smallBudget.AllOnline 1 →
      (∃ size, Admissible 4096 (smallBudget.rings 1) smallBudget.autoCap
        smallBudget.maxTotalAuxBytes size) →
      DefaultPasses 4096 smallBudget ∧ smallBudget.rings 1 ≠ 0 ∧
        smallBudget.rings 1 * 16 * 4096 < wordSize ∧ smallBudget.ShareRounds (smallBudget.rings 1)) ∧
    (smallBudget.auxBytesPerBuffer = none → smallBudget.Usable →
      (∃ size, Admissible 4096 1 defaultDirectAuxBytes smallBudget.maxTotalAuxBytes size) →
      DefaultPasses 4096 smallBudget) :=
  sized_iff smallBudget 1 4096 16 (by decide) (by decide)

/-- A ring of 2 MiB would fit, and none is found. -/
theorem small_not_sized :
    ¬ ∀ (config : IntelPtConfig) (onlineCpus pageSize metaPages : Nat),
      isPowerOfTwo pageSize = true → config.maxTotalAuxBytes < wordSize →
      Sized (fun c => c.fitAuxTopology onlineCpus pageSize metaPages) pageSize
          (config.rings onlineCpus) config.autoCap
          (config.Usable ∧ config.AllOnline onlineCpus) config ∧
        Sized (fun c => c.fitAuxPerThread pageSize metaPages) pageSize 1 defaultDirectAuxBytes
          config.Usable config := by
  intro h
  obtain ⟨-, hsized⟩ := h smallBudget 1 4096 16 (by decide) (by decide)
  have hsize : Admissible 4096 1 defaultDirectAuxBytes smallBudget.maxTotalAuxBytes (2 ^ 21) :=
    ⟨⟨⟨21, rfl⟩, by decide⟩, by decide, by decide⟩
  obtain ⟨top, config', hfit⟩ := hsized.complete rfl smallBudget_usable ⟨_, hsize⟩
  obtain ⟨-, -, hle⟩ := (validate_iff (by decide)).mp (fitAuxPerThread_ok (by decide) hfit).1
  exact absurd hle (by decide)

end IntelPtConfig

end TraceMcp
