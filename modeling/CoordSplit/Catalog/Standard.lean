import CoordSplit.Catalog.Spec

/-!
# The built-in catalog

The catalog of block positions packed into a long.
-/

set_option autoImplicit false

namespace CoordSplit

/-- The description of the built-in catalog. -/
def CatalogSpec.standard : CatalogSpec where
  unpacking :=
    ["net/minecraft/util/math/BlockPos#unpackLongX (J)I",
     "net/minecraft/util/math/BlockPos#unpackLongY (J)I",
     "net/minecraft/util/math/BlockPos#unpackLongZ (J)I"]
  offset := some {
    method := "net/minecraft/util/math/BlockPos#offset (JLnet/minecraft/util/math/Direction;)J"
    axes :=
      ["net/minecraft/util/math/Direction#getOffsetX ()I",
       "net/minecraft/util/math/Direction#getOffsetY ()I",
       "net/minecraft/util/math/Direction#getOffsetZ ()I"] }
  sentinel := some ⟨9223372036854775807, 2147483647⟩
  methods :=
    [("net/minecraft/util/math/BlockPos#asLong ()J",
      { returnsPacked := true
        axes :=
          ["net/minecraft/util/math/BlockPos#getX ()I",
           "net/minecraft/util/math/BlockPos#getY ()I",
           "net/minecraft/util/math/BlockPos#getZ ()I"] }),
     ("net/minecraft/util/math/BlockPos#asLong (III)J",
      { returnsPacked := true, isStatic := true, pack := true }),
     ("net/minecraft/util/math/BlockPos#offset (JLnet/minecraft/util/math/Direction;)J",
      { returnsPacked := true, packedArgs := [0], isStatic := true }),
     ("net/minecraft/util/math/BlockPos#fromLong (J)Lnet/minecraft/util/math/BlockPos;",
      { packedArgs := [0], isStatic := true }),
     ("net/minecraft/world/chunk/light/ChunkLightProvider#getStateForLighting " ++
        "(JLorg/apache/commons/lang3/mutable/MutableInt;)Lnet/minecraft/block/BlockState;",
      { packedArgs := [0] }),
     ("net/minecraft/world/chunk/light/ChunkLightProvider#getOpacity " ++
        "(Lnet/minecraft/block/BlockState;JLnet/minecraft/util/math/Direction;)" ++
        "Lnet/minecraft/util/shape/VoxelShape;",
      { packedArgs := [1] }),
     ("net/minecraft/world/chunk/light/LevelPropagator#propagateLevel (JJIZ)V",
      { packedArgs := [0, 1] }),
     ("net/minecraft/world/chunk/light/LevelPropagator#getPropagatedLevel (JJI)I",
      { packedArgs := [0, 1] }),
     ("net/minecraft/world/chunk/light/LevelPropagator#getLevel (J)I", { packedArgs := [0] }),
     ("net/minecraft/world/chunk/light/LevelPropagator#updateLevel (JJIZ)V",
      { packedArgs := [0, 1], rename := "updateLevelInts" })]

end CoordSplit
