import Memrec.Extrema
import Memrec.Gplot

/-!
# The automatic ranges of `gplot`

`gplot` keeps the smallest and the largest coordinate of the points that it writes to its
data file.  They begin with the constants `9.9e9` and `-9.9e9`, which stand for values that
every coordinate is below and above.  `ranges_iff` says which data sets this is true of.
-/

namespace Memrec

open Perl Perl.Pat

/-- The range has the least and the greatest coordinates of the points. -/
structure PlotRange.Bounds (r : PlotRange) (points : List (ℚ × ℚ)) : Prop where
  minX : IsLeast {x | x ∈ points.map Prod.fst} r.minX
  maxX : IsGreatest {x | x ∈ points.map Prod.fst} r.maxX
  minY : IsLeast {y | y ∈ points.map Prod.snd} r.minY
  maxY : IsGreatest {y | y ∈ points.map Prod.snd} r.maxY

/-- Coordinates of which some is not above `9.9e9` and some is not below `-9.9e9`. -/
def MeetsStart (cs : List ℚ) : Prop :=
  (∃ c ∈ cs, c ≤ 9900000000) ∧ ∃ c ∈ cs, -9900000000 ≤ c

/-- The loop over the points is four loops, one for each side of the range. -/
theorem foldl_add (points : List (ℚ × ℚ)) (r : PlotRange) :
    points.foldl PlotRange.add r =
      ⟨Extrema.least r.minX (points.map Prod.fst), Extrema.greatest r.maxX (points.map Prod.fst),
        Extrema.least r.minY (points.map Prod.snd),
        Extrema.greatest r.maxY (points.map Prod.snd)⟩ := by
  induction points generalizing r with
  | nil => rfl
  | cons p points ih =>
      rw [List.foldl_cons, ih]
      rfl

/-- **The automatic ranges.**  They are those of the points in the data file if and only if,
on both axes, some point is not above `9.9e9` and some point is not below `-9.9e9`. -/
theorem ranges_iff (x y : Pat Unit) (t : Option (Pat Text)) (file : Text) :
    (gplot x y t file).2.Bounds (gplot x y t file).1 ↔
      MeetsStart ((gplot x y t file).1.map Prod.fst) ∧
        MeetsStart ((gplot x y t file).1.map Prod.snd) := by
  have hrange : (gplot x y t file).2 = (gplot x y t file).1.foldl PlotRange.add .start := rfl
  rw [hrange, foldl_add]
  constructor
  · intro ⟨hminX, hmaxX, hminY, hmaxY⟩
    exact ⟨⟨(Extrema.isLeast_least_iff _ _).mp hminX,
        (Extrema.isGreatest_greatest_iff _ _).mp hmaxX⟩,
      (Extrema.isLeast_least_iff _ _).mp hminY, (Extrema.isGreatest_greatest_iff _ _).mp hmaxY⟩
  · intro ⟨⟨hminX, hmaxX⟩, hminY, hmaxY⟩
    exact ⟨(Extrema.isLeast_least_iff _ _).mpr hminX,
      (Extrema.isGreatest_greatest_iff _ _).mpr hmaxX,
      (Extrema.isLeast_least_iff _ _).mpr hminY, (Extrema.isGreatest_greatest_iff _ _).mpr hmaxY⟩

/-- `\s` and a key without characters that mean something in an expression. -/
def plainKey (k : Text) : Pat Unit := do
  let _ ← cls isSpace
  lit k

/-- A count of twenty billion bytes is above the constant that the least one starts with. -/
theorem large_count_out_of_range :
    ¬ ∀ file, (gplot (plainKey "t".toList) (plainKey "bytes".toList) none file).1 ≠ [] →
      (gplot (plainKey "t".toList) (plainKey "bytes".toList) none file).2.Bounds
        (gplot (plainKey "t".toList) (plainKey "bytes".toList) none file).1 := by
  intro hall
  have hpoints : (gplot (plainKey "t".toList) (plainKey "bytes".toList) none
      "t=1 bytes=20000000000\n".toList).1 = [(1, 20000000000)] := by decide +kernel
  have hmin : (gplot (plainKey "t".toList) (plainKey "bytes".toList) none
      "t=1 bytes=20000000000\n".toList).2.minY = 9900000000 := by decide +kernel
  have hne : (gplot (plainKey "t".toList) (plainKey "bytes".toList) none
      "t=1 bytes=20000000000\n".toList).1 ≠ [] := by
    rw [hpoints]
    exact List.cons_ne_nil _ _
  have hleast := (hall _ hne).minY.1
  rw [hmin, hpoints] at hleast
  norm_num at hleast

end Memrec
