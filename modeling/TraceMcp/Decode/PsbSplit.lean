import TraceMcp.Decode.Native
import TraceMcp.Lib.Tiling

/-!
# Chunks of a trace

`split_at_psb` cuts a blob at PSB packets that lie far enough behind the last
cut and not too near to the end. The chunks tile the blob, and there are no
more than were asked for: each but the last is as long as its share of the
blob, and the megabyte the last one must have is more than the shares lose by
rounding, as long as no more than `2^20` parts are asked for
(`splitAtPsb_partition`).
-/

namespace TraceMcp.Decode

open TraceMcp.Lib

/-- What the chunks of a split buffer are. -/
structure Partition (data : List UInt8) (parts : Nat) (chunks : List (Nat × Nat)) : Prop where
  tiles : Tiles 0 chunks data.length
  psb : ∀ c ∈ chunks.drop 1, (data.drop c.1).take 16 = psb
  count : chunks.length ≤ parts
  size : ∀ c ∈ chunks.dropLast, max (data.length / parts) minChunk ≤ c.2

/-! ## Offsets -/

/-- Each offset found is that of a PSB packet. -/
theorem psbOffsetsFrom_psb {i off : Nat} {data : List UInt8} (h : off ∈ psbOffsetsFrom i data) :
    i ≤ off ∧ (data.drop (off - i)).take 16 = psb := by
  induction i, data using psbOffsetsFrom.induct with
  | case1 i data hshort =>
    rw [psbOffsetsFrom, if_pos hshort] at h
    cases h
  | case2 i data hlong hpsb ih =>
    rw [psbOffsetsFrom, if_neg hlong, if_pos hpsb] at h
    rcases List.mem_cons.mp h with rfl | h
    · rw [Nat.sub_self, List.drop_zero]
      exact ⟨Nat.le_refl off, hpsb⟩
    · obtain ⟨hle, htake⟩ := ih h
      rw [List.drop_drop] at htake
      have hoff : 16 + (off - (i + 16)) = off - i := by omega
      rw [hoff] at htake
      exact ⟨by omega, htake⟩
  | case3 i data hlong hpsb ih =>
    rw [psbOffsetsFrom, if_neg hlong, if_neg hpsb] at h
    obtain ⟨hle, htake⟩ := ih h
    rw [List.drop_drop] at htake
    have hoff : 1 + (off - (i + 1)) = off - i := by omega
    rw [hoff] at htake
    exact ⟨by omega, htake⟩

/-! ## Cuts -/

/-- The cuts, latest first: each is `target` behind the one before, they go back
to the start, and every other one is an offset that leaves half a chunk. -/
structure Cuts (len target : Nat) (offsets cuts : List Nat) : Prop where
  apart : cuts.IsChain fun b a => a + target ≤ b
  first : cuts.getLast? = some 0
  psb : ∀ c ∈ cuts.dropLast, c ∈ offsets ∧ c + minChunk / 2 ≤ len

theorem psbCuts_cuts {len target : Nat} (htarget : 0 < target) (offsets : List Nat) :
    Cuts len target offsets (psbCuts len target offsets) := by
  induction offsets using List.reverseRecOn with
  | nil => exact ⟨.singleton 0, rfl, fun c hc => by cases hc⟩
  | append_singleton offsets off ih =>
    obtain ⟨hapart, hfirst, hpsb⟩ := ih
    have hold : ∀ c ∈ (psbCuts len target offsets).dropLast,
        c ∈ offsets ++ [off] ∧ c + minChunk / 2 ≤ len := fun c hc =>
      ⟨List.mem_append_left _ (hpsb c hc).1, (hpsb c hc).2⟩
    rw [psbCuts, List.foldl_append, List.foldl_cons, List.foldl_nil]
    show Cuts len target (offsets ++ [off]) (if target ≤ off - (psbCuts len target offsets).headD 0 ∧
      minChunk / 2 ≤ len - off then off :: psbCuts len target offsets
        else psbCuts len target offsets)
    split
    next hcut =>
      cases hcuts : psbCuts len target offsets with
      | nil =>
        rw [hcuts] at hfirst
        cases hfirst
      | cons c cuts =>
        rw [hcuts] at hapart hfirst hold hcut
        obtain ⟨hfar, hleft⟩ := hcut
        have hhalf : 0 < minChunk / 2 := by decide
        refine ⟨List.isChain_cons_cons.mpr ⟨?_, hapart⟩, ?_, ?_⟩
        · show c + target ≤ off
          change target ≤ off - c at hfar
          omega
        · rw [List.getLast?_cons_cons, hfirst]
        · intro c' hc'
          rw [List.dropLast_cons_cons] at hc'
          rcases List.mem_cons.mp hc' with rfl | hc'
          · exact ⟨List.mem_append_right _ (List.mem_singleton_self c'), by omega⟩
          · exact hold c' hc'
    next => exact ⟨hapart, hfirst, hold⟩

/-! ## Chunks -/

/-- The shares of `parts` chunks lose less than the megabyte the last chunk
must have. -/
theorem share_bound {len parts n target : Nat} (hparts : parts ≤ 2 ^ 20) (hpos : 0 < parts)
    (htarget : len / parts ≤ target) (hfit : n * target + 2 ^ 20 ≤ len) : n < parts := by
  by_contra hle
  have hmany : parts * (len / parts) ≤ n * target := Nat.mul_le_mul (by omega) htarget
  have hdiv := Nat.div_add_mod len parts
  have hmod := Nat.mod_lt len hpos
  omega

/-- The chunks of any buffer partition it, for up to `2^20` parts. -/
theorem splitAtPsb_partition (data : List UInt8) (parts : Nat) (hpos : 1 ≤ parts)
    (hparts : parts ≤ 2 ^ 20) : Partition data parts (splitAtPsb data parts) := by
  unfold splitAtPsb
  split
  next =>
    refine ⟨⟨rfl, Nat.zero_add _⟩, ?_, hpos, ?_⟩
    · intro c hc
      cases hc
    · intro c hc
      cases hc
  next hsplit =>
    have hlong : ¬ data.length < 2 * minChunk := fun hshort => hsplit (Or.inr hshort)
    have hmin : minChunk = 2097152 := rfl
    dsimp only
    generalize htarget : max (data.length / parts) minChunk = target
    have hshare : data.length / parts ≤ target := htarget ▸ Nat.le_max_left ..
    have hcuts : Cuts data.length target (psbOffsets data)
        (psbCuts data.length target (psbOffsets data)) := psbCuts_cuts (by omega) _
    generalize psbCuts data.length target (psbOffsets data) = cuts at hcuts
    obtain ⟨hapart, hfirst, hpsb⟩ := hcuts
    -- from the first cut to the last
    obtain ⟨init, rfl⟩ := List.getLast?_eq_some_iff.mp hfirst
    rw [List.dropLast_concat] at hpsb
    have hcuts : (data.length :: (init ++ [0])).reverse = 0 :: (init.reverse ++ [data.length]) := by
      simp
    have hend : (0 :: (init.reverse ++ [data.length])).getLast? = some data.length := by
      rw [← List.cons_append, List.getLast?_concat]
    have hrise : (0 :: init.reverse).IsChain fun a b => a + target ≤ b := by
      have hrev := List.isChain_reverse.mpr hapart
      rwa [List.reverse_append, List.reverse_singleton, List.singleton_append] at hrev
    obtain ⟨last, hlast⟩ : ∃ last, (0 :: init.reverse).getLast? = some last :=
      Option.isSome_iff_exists.mp (by simp)
    have hbehind : last + 2 ^ 20 ≤ data.length := by
      rcases List.mem_cons.mp (List.mem_of_getLast? hlast) with rfl | hmem
      · omega
      · obtain ⟨-, hle⟩ := hpsb last (List.mem_reverse.mp hmem)
        omega
    rw [hcuts]
    show Partition data parts (pieces (0 :: (init.reverse ++ [data.length])))
    refine ⟨tiles_pieces ?_ hend, ?_, ?_, ?_⟩
    · have hends : ∀ x ∈ (0 :: init.reverse).getLast?, x ≤ data.length := by
        intro x hx
        obtain rfl := Option.some.inj (hlast.symm.trans hx)
        omega
      rw [← List.cons_append]
      refine List.isChain_append.mpr ⟨hrise.imp fun _ _ hab => by omega, .singleton _, ?_⟩
      intro x hx y hy
      obtain rfl := Option.some.inj hy
      exact hends x hx
    · intro c hc
      have hmem : c.1 ∈ ((pieces (0 :: (init.reverse ++ [data.length]))).map Prod.fst).drop 1 := by
        rw [← List.map_drop]
        exact List.mem_map_of_mem hc
      rw [map_fst_pieces, ← List.cons_append, List.dropLast_concat, List.drop_one,
        List.tail_cons] at hmem
      exact (psbOffsetsFrom_psb (hpsb c.1 (List.mem_reverse.mp hmem)).1).2
    · have hreach := spread_cuts hrise hlast
      rw [length_pieces, List.length_cons, List.length_append, List.length_singleton]
      have hfew : init.reverse.length < parts := share_bound hparts hpos hshare (by omega)
      omega
    · intro c hc
      rw [← pieces_dropLast, ← List.cons_append, List.dropLast_concat] at hc
      obtain ⟨a, b, hab, rfl⟩ := mem_pieces hrise hc
      show _ ≤ b - a
      omega

/-- 32 MiB of packets. -/
def manyPsbs : List UInt8 := (List.replicate (2 ^ 21) psb).flatten

/-- The buffer is long enough to be split. -/
theorem splitAtPsb_partition_manyPsbs :
    2 * minChunk ≤ manyPsbs.length ∧ Partition manyPsbs 4 (splitAtPsb manyPsbs 4) := by
  refine ⟨?_, splitAtPsb_partition manyPsbs 4 (by decide) (by decide)⟩
  rw [manyPsbs, List.length_flatten, List.map_replicate, List.sum_replicate_nat]
  decide

end TraceMcp.Decode
