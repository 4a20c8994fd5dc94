import NpuCompiler.Const.MemPermute

namespace NpuCompiler.Tiling

open Const (DimsOrder)

structure TileInfo where
  shape : List ℤ
  offsets : List ℤ
  axis : List ℤ
  isCompletedTile : Bool
  deriving DecidableEq

namespace TileInfo

def ofRank (rank : ℕ) : TileInfo :=
  ⟨List.replicate rank 0, List.replicate rank 0, List.replicate rank 0, false⟩

def setDim (tile : TileInfo) (dimension : ℕ) (shape offset axis : ℤ) : TileInfo :=
  { tile with
    shape := tile.shape.set dimension shape
    offsets := tile.offsets.set dimension offset
    axis := tile.axis.set dimension axis }

end TileInfo

def divUp (a b : ℤ) : ℤ := (a + b - 1).tdiv b

def alignValUp (val align : ℤ) : ℤ :=
  let isPos := if 0 ≤ val then 1 else 0
  (val + isPos * (align - 1)).tdiv align * align

/-- The size of the first tiles, the size of the other ones, and how many tiles have the first size. An index outside
of a list is `none` as the failure is. -/
def divideTileSizeAndInterval (dimension : ℕ) (divisors shape alignment : List ℤ) : Option (ℤ × ℤ × ℤ) := do
  let shapeVal ← shape[dimension]?
  let divisorVal ← divisors[dimension]?
  let alignmentVal ← alignment[dimension]?
  if shapeVal < divisorVal then none
  else if 1 < alignmentVal then
    let tileSize := alignValUp (divUp shapeVal divisorVal) alignmentVal
    let remainderTileSize := shapeVal - tileSize * (divisorVal - 1)
    if remainderTileSize ≤ 0 then none else some (tileSize, remainderTileSize, divisorVal - 1)
  else
    let tileSize := shapeVal.tdiv divisorVal
    let remainderTileSize := shapeVal.tmod divisorVal
    if remainderTileSize ≠ 0 then some (tileSize + 1, tileSize, remainderTileSize)
    else some (tileSize, remainderTileSize, divisorVal)

def GNHWC : DimsOrder := ⟨[0, 1, 3, 4, 2], by decide⟩

/-- The dimension the recursion handles at `dimensionIndex`; an order throws at a position it does not have. -/
def dimensionAt (unrollSpatialFirst : Bool) (rank dimensionIndex : ℕ) : Option ℕ :=
  let spatialFirstOrder := if rank = 5 then GNHWC else DimsOrder.NHWC
  if unrollSpatialFirst then spatialFirstOrder.perm[dimensionIndex]? else some dimensionIndex

def dimC : ℕ := 1
def dimH : ℕ := 2
def dimW : ℕ := 3

section
variable (divisors shape alignment : List ℤ) (unrollSpatialFirst : Bool) (customChannelSplit : Option (List ℤ))

def tileShapeAt (dimension : ℕ) (sizes : ℤ × ℤ × ℤ) (tileIndex : ℕ) : Option ℤ :=
  match customChannelSplit with
  | some split => if dimension = dimC then split[tileIndex]? else
      some (if (tileIndex : ℤ) < sizes.2.2 then sizes.1 else sizes.2.1)
  | none => some (if (tileIndex : ℤ) < sizes.2.2 then sizes.1 else sizes.2.1)

def unrollDimension (next : List TileInfo → TileInfo → Option (List TileInfo × TileInfo)) (dimension : ℕ)
    (totalTileSize : ℤ) (sizes : ℤ × ℤ × ℤ) :
    List ℕ → ℤ → List TileInfo → TileInfo → Option (List TileInfo × TileInfo)
  | [], _, dividedTiles, ongoingTile => some (dividedTiles, ongoingTile)
  | tileIndex :: rest, tileOffset, dividedTiles, ongoingTile => do
    let tileShape ← tileShapeAt customChannelSplit dimension sizes tileIndex
    let (dividedTiles, ongoingTile) ← next dividedTiles (ongoingTile.setDim dimension tileShape tileOffset totalTileSize)
    unrollDimension next dimension totalTileSize sizes rest (tileOffset + tileShape) dividedTiles ongoingTile

def divideTiles : ℕ → ℕ → List TileInfo → TileInfo → Option (List TileInfo × TileInfo)
  | remaining, dimensionIndex, dividedTiles, ongoingTile => do
    let dimension ← dimensionAt unrollSpatialFirst shape.length dimensionIndex
    let sizes ← divideTileSizeAndInterval dimension divisors shape alignment
    let totalTileSize ← divisors[dimension]?
    let next := match remaining with
      | 0 => fun dividedTiles ongoingTile => some (dividedTiles ++ [ongoingTile], ongoingTile)
      | remaining + 1 => divideTiles remaining (dimensionIndex + 1)
    unrollDimension customChannelSplit next dimension totalTileSize sizes (List.range totalTileSize.toNat) 0
      dividedTiles ongoingTile

end

def fillDividedTiles (divisors shape : List ℤ) (alignment : Option (List ℤ)) (unrollSpatialFirst : Bool)
    (customChannelSplit : Option (List ℤ)) : Option (List TileInfo) := do
  let ongoingTile := { TileInfo.ofRank divisors.length with isCompletedTile := true }
  let alignmentShape := alignment.getD (List.replicate shape.length 1)
  if divisors = [] then none
  else
    let (dividedTiles, _) ← divideTiles divisors shape alignmentShape unrollSpatialFirst customChannelSplit
      (divisors.length - 1) 0 [] ongoingTile
    some dividedTiles

section

def checkedDiv (a b : ℤ) : Option ℤ := if b = 0 then none else some (a.tdiv b)

def tileSizeYuvToRgb (shapeVal divisorVal : ℤ) : Option (ℤ × ℤ × ℤ) := do
  let tileSizeInit ← checkedDiv shapeVal divisorVal
  let tileSize := tileSizeInit + tileSizeInit.tmod 2
  let divisorVal ← checkedDiv shapeVal tileSize
  some (tileSize, divisorVal, shapeVal.tmod tileSize)

def setTile (ongoingTile : TileInfo) (dimension : ℕ) (shape offset : ℤ) : TileInfo :=
  { ongoingTile with shape := ongoingTile.shape.set dimension shape, offsets := ongoingTile.offsets.set dimension offset }

def unrollYuvToRgb (dimension : ℕ) (sizes : ℤ × ℤ × ℤ) (ongoingTile : TileInfo) : List TileInfo :=
  ((List.range sizes.2.1.toNat).map fun (i : ℕ) => setTile ongoingTile dimension sizes.1 (sizes.1 * i)) ++
    (if sizes.2.2 ≠ 0 then [setTile ongoingTile dimension sizes.2.2 (sizes.1 * sizes.2.1)] else [])

def divideTilesYuvToRgbOp (divisors shape : List ℤ) (ongoingTile : TileInfo) : Option (List TileInfo) := do
  let shapeN ← shape[0]?
  let shapeC ← shape[dimC]?
  let shapeH ← shape[dimH]?
  let shapeW ← shape[dimW]?
  let divisorN ← divisors[0]?
  let divisorC ← divisors[dimC]?
  let divisorH ← divisors[dimH]?
  let divisorW ← divisors[dimW]?
  let ongoingTile := { ongoingTile with
    shape := (ongoingTile.shape.set 0 shapeN).set dimW shapeW
    axis := (((ongoingTile.axis.set 0 divisorN).set dimC divisorC).set dimH divisorH).set dimW divisorW }
  let sizesC ← tileSizeYuvToRgb shapeC divisorC
  let sizesH ← tileSizeYuvToRgb shapeH divisorH
  some ((unrollYuvToRgb dimC sizesC ongoingTile).flatMap fun tile => unrollYuvToRgb dimH sizesH tile)

def fillDividedTilesYuvToRgbOp (divisors shape : List ℤ) : Option (List TileInfo) :=
  divideTilesYuvToRgbOp divisors shape { TileInfo.ofRank divisors.length with isCompletedTile := true }

end

end NpuCompiler.Tiling
