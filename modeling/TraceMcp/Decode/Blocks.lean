import TraceMcp.Decode.Symbols

/-!
# Blocks

What `attribute_block` makes of a straight-line block, taken apart: the mapping
that covers it, what the archived image has there (`BlockPlace`: the symbol at
its start, the inline chain, the number of instructions), and the ids under
which the symbol and the chain are known. `describeBlock_eq` puts it together
again, and `attributeBlock_counts` says what a call adds to the counts.
-/

namespace TraceMcp.Decode

open TraceMcp.Lib Reconstructor

/-- What an image has at a block: the symbol at its start, as `func_index` keys
it, the inline chain there, and the number of instructions. -/
structure BlockPlace where
  symbol : Option (Nat × Nat)
  chain : List String
  instructions : Nat

namespace Reconstructor

/-- The place of a block in the image behind a mapping. -/
def placeThrough (r : Reconstructor) (tools : InlineTools) (map : MappingRecord)
    (start stop : Nat) : Option BlockPlace := do
  let ii ← r.imageAt map.path
  let idx ← r.index[ii]?
  let image ← r.images[ii]?
  let relStart ← idx.relativeAddr start map.start map.pgoff
  let relEnd ← idx.relativeAddr stop map.start map.pgoff
  let off ← ImageIndex.fileOffset start map.start map.pgoff
  let offEnd ← ImageIndex.fileOffset stop map.start map.pgoff
  guard (offEnd < image.bytes.length)
  let sliceEnd := min (offEnd + 16) image.bytes.length
  pure
    { symbol := (idx.function relStart).map fun fr => (asU32 ii, fr.start)
      chain := (tools.frames image.archivePath relStart).dropLast
      instructions :=
        tools.countInsns ((image.bytes.take sliceEnd).drop off) relStart relEnd }

/-- The place of a block of `pid`, through the newest mapping that covers it. -/
def blockPlace (r : Reconstructor) (tools : InlineTools) (pid start stop : Nat) :
    Option BlockPlace := do
  let mapIdx ← r.findMapping pid start stop
  let map ← r.mappings[mapIdx]?
  r.placeThrough tools map start stop

/-- What is counted for a block of `pid`: nothing for a block that is too long
or runs backwards, or in no archived image. -/
def blockInfo (r : Reconstructor) (pid start stop : Nat) : Option BlockInfo :=
  r.inline.bind fun inl =>
    if stop < start ∨ stop - start > 2 ^ 20 then none
    else (inl.blocks.get (pid, start, stop)).or
      ((r.describeBlock inl pid start stop).map Prod.snd)

end Reconstructor

/-- The time between the two samples of a block. -/
def blockElapsed (t0 t1 : Option Nat) : Nat :=
  match t0, t1 with
  | some a, some b => if a ≤ b then b - a else 0
  | _, _ => 0

/-- The info of a place, under the ids known to `r` and `inl`. -/
def BlockPlace.info (r : Reconstructor) (inl : InlineState) (x : BlockPlace) : BlockInfo where
  function := x.symbol.bind r.funcIndex.get
  chainKey := (internChain inl x.chain).2
  instructions := x.instructions

variable {r r' : Reconstructor} {k : Key} {inl : InlineState} {pid start stop : Nat}

/-- A block is described by its place. -/
theorem describeBlock_eq : r.describeBlock inl pid start stop =
    (r.blockPlace inl.tools pid start stop).map fun x =>
      ((internChain inl x.chain).1, x.info r inl) := by
  unfold describeBlock blockPlace placeThrough
  simp only [Option.bind_eq_bind, Option.map_bind, Option.pure_def, Function.comp_def,
    Option.map_some, BlockPlace.info, Option.bind_map]

/-! ## Chains -/

theorem internChain_blocks (inl : InlineState) (chain : List String) :
    (internChain inl chain).1.blocks = inl.blocks ∧ (internChain inl chain).1.agg = inl.agg ∧
      (internChain inl chain).1.tools = inl.tools := by
  unfold internChain
  split <;> exact ⟨rfl, rfl, rfl⟩

/-- A chain keeps its index. -/
theorem internChain_keeps {chain chain' : List String} {i : Nat}
    (h : inl.chainIndex.get chain = some i) :
    (internChain inl chain').1.chainIndex.get chain = some i := by
  unfold internChain
  split
  next => exact h
  next hnone =>
    rw [FastMap.get_insert]
    split
    next heq =>
      rw [heq, hnone] at h
      cases h
    next => exact h

/-- A chain is known by its index from then on. -/
theorem internChain_known (inl : InlineState) (chain : List String) :
    (internChain inl chain).1.chainIndex.get chain = some (internChain inl chain).2 := by
  unfold internChain
  split
  next i hi => exact hi
  next => exact FastMap.get_insert_self ..

theorem internChain_of_known {chain : List String} {i : Nat}
    (h : inl.chainIndex.get chain = some i) : internChain inl chain = (inl, i) := by
  unfold internChain
  rw [h]

/-! ## Counting -/

/-- The counts with one more block of thread `k`. -/
def countBlock (agg : FastMap InlineKey InlineAgg) (k : Key) (info : BlockInfo) (elapsed : Nat) :
    FastMap InlineKey InlineAgg :=
  agg.insert (k, info.function, info.chainKey)
    (((FastMap.get agg (k, info.function, info.chainKey)).getD ⟨0, 0, 0⟩).add info.instructions
      elapsed)

/-- Inline attribution before and after a call of `attribute_block`. -/
structure Attributed (r : Reconstructor) (inl inl' : InlineState) (k : Key)
    (pid start stop elapsed : Nat) : Prop where
  tools : inl'.tools = inl.tools
  agg : inl'.agg = (r.blockInfo pid start stop).elim inl.agg fun info =>
    countBlock inl.agg k info elapsed
  chains : ∀ chain i, inl.chainIndex.get chain = some i → inl'.chainIndex.get chain = some i
  /-- What is in the cache was there, or is the block as it is described now. -/
  blocks : ∀ key info, inl'.blocks.get key = some info → inl.blocks.get key = some info ∨
    (key = (pid, start, stop) ∧ inl.blocks.get key = none ∧
      ∃ x, r.blockPlace inl.tools pid start stop = some x ∧ info = x.info r inl ∧
        inl'.chainIndex.get x.chain = some info.chainKey)

/-- Nothing is counted. -/
theorem Attributed.refl {k : Key} {elapsed : Nat} (h : r.blockInfo pid start stop = none) :
    Attributed r inl inl k pid start stop elapsed where
  tools := rfl
  agg := by rw [h, Option.elim_none]
  chains := fun _ _ hi => hi
  blocks := fun _ _ hinfo => Or.inl hinfo

/-- The state with a block in its cache, unless that is full. -/
def remember (inl : InlineState) (key : Nat × Nat × Nat) (info : BlockInfo) : InlineState :=
  if inl.blocks.entries.length < 4000000 then { inl with blocks := inl.blocks.insert key info }
  else inl

theorem remember_fields (inl : InlineState) (key : Nat × Nat × Nat) (info : BlockInfo) :
    (remember inl key info).agg = inl.agg ∧ (remember inl key info).tools = inl.tools ∧
      (remember inl key info).chainIndex = inl.chainIndex := by
  unfold remember
  split <;> exact ⟨rfl, rfl, rfl⟩

theorem remember_blocks {key key' : Nat × Nat × Nat} {info info' : BlockInfo}
    (h : (remember inl key info).blocks.get key' = some info') :
    inl.blocks.get key' = some info' ∨ (key' = key ∧ info' = info) := by
  unfold remember at h
  split at h
  next =>
    rw [FastMap.get_insert] at h
    split at h
    next hkey => exact Or.inr ⟨hkey, (Option.some.inj h).symm⟩
    next => exact Or.inl h
  next => exact Or.inl h

/-- A call of `attribute_block` changes inline attribution only. -/
theorem attributeBlock_eq (h : r.inline = some inl) (k : Key) (pid start stop : Nat)
    (t0 t1 : Option Nat) :
    ∃ inl', r.attributeBlock k pid start stop t0 t1 = { r with inline := some inl' } ∧
      Attributed r inl inl' k pid start stop (blockElapsed t0 t1) := by
  have hsame : r = { r with inline := some inl } := by rw [← h]
  have hinfo : r.blockInfo pid start stop =
      if stop < start ∨ stop - start > 2 ^ 20 then none
      else (inl.blocks.get (pid, start, stop)).or
        ((r.describeBlock inl pid start stop).map Prod.snd) := by
    rw [blockInfo, h, Option.bind_some]
  unfold attributeBlock
  rw [h]
  dsimp only
  split
  next hlong =>
    rw [if_pos hlong] at hinfo
    exact ⟨inl, hsame, .refl hinfo⟩
  next hlong =>
    rw [if_neg hlong] at hinfo
    cases hcached : inl.blocks.get (pid, start, stop) with
    | some info =>
      rw [hcached, Option.some_or] at hinfo
      refine ⟨_, rfl, rfl, ?_, (fun _ _ hi => hi), fun _ _ hold => Or.inl hold⟩
      rw [hinfo]
      rfl
    | none =>
      rw [hcached, Option.none_or, describeBlock_eq, Option.map_map] at hinfo
      rw [describeBlock_eq, Option.map_map]
      cases hplace : r.blockPlace inl.tools pid start stop with
      | none =>
        rw [hplace] at hinfo
        exact ⟨inl, hsame, .refl hinfo⟩
      | some x =>
        rw [hplace] at hinfo
        obtain ⟨hblocks, hagg, htools⟩ := internChain_blocks inl x.chain
        obtain ⟨hagg', htools', hchains⟩ := remember_fields (internChain inl x.chain).1
          (pid, start, stop) (x.info r inl)
        refine ⟨{ remember (internChain inl x.chain).1 (pid, start, stop) (x.info r inl) with
          blockCount := _
          agg := _ }, rfl, htools'.trans htools, ?_, ?_, ?_⟩
        · rw [hinfo]
          show countBlock (remember _ _ _).agg _ _ _ = countBlock inl.agg _ _ _
          rw [hagg', hagg]
          rfl
        · intro chain i hi
          show (remember _ _ _).chainIndex.get chain = some i
          rw [hchains]
          exact internChain_keeps hi
        · intro key info hget
          rcases remember_blocks hget with hold | ⟨rfl, rfl⟩
          · exact Or.inl (hblocks ▸ hold)
          · refine Or.inr ⟨rfl, hcached, x, hplace, rfl, ?_⟩
            show (remember _ _ _).chainIndex.get x.chain = _
            rw [hchains]
            exact internChain_known inl x.chain

/-- The block of a sample changes inline attribution only. -/
theorem attributed_tables {s : Sample} (h : (r.attributing s).inline = some inl) :
    ∃ inl', tables (r.attributed s) = { tables (r.attributing s) with inline := some inl' } ∧
      ((r.attributing s).blockCall s = none → inl' = inl) ∧
      ∀ call, (r.attributing s).blockCall s = some call →
        Attributed (r.attributing s) inl inl' (s.pid, s.tid) s.pid call.1.1 call.2
          (blockElapsed call.1.2 s.timeNs) := by
  have htables : ∀ (m : Reconstructor) (f : ThreadState → ThreadState),
      tables (m.modThread (s.pid, s.tid) f) = tables m := by
    intro m f
    unfold modThread
    split <;> rfl
  have hon : ¬ (r.attributing s).inline.isNone = true := by simp [h]
  unfold attributed
  rw [attributeSample_eq, if_neg hon, htables]
  generalize r.attributing s = m at h
  cases hcall : m.blockCall s with
  | none =>
    refine ⟨inl, ?_, (fun _ => rfl), fun call hsome => by cases hsome⟩
    show tables m = { tables m with inline := some inl }
    rw [← h]
    rfl
  | some call =>
    obtain ⟨inl', heq, hattr⟩ := attributeBlock_eq h (s.pid, s.tid) s.pid call.1.1 call.2 call.1.2
      s.timeNs
    refine ⟨inl', ?_, (fun hnone => by cases hnone), fun call' hsome => ?_⟩
    · rw [Option.elim_some, heq]
      rfl
    · obtain rfl := Option.some.inj hsome
      exact hattr

end TraceMcp.Decode
