import Emos.Fat.Lemmas.Geometry

/-!
This module contains which clusters of a volume the boot loader's FAT driver can get to.
-/

open Lib

namespace Emos.Boot

namespace FatData

/--
A cluster that an entry of the table has is the next one, and the steps from it are done.
-/
structure Reaches (d : FatData) (cluster : Nat) : Prop where
  followed : ∀ previous d', previous ≤ d.geometry.fatType.maxCluster
    → d.fatEntry previous = .ok ⟨.ok cluster, d'⟩
    → d.getNextCluster previous 1 = .ok ⟨.success, cluster, d'⟩
  accepted : ∀ count, d.getNextCluster cluster count = d.nextClusters cluster count

variable {d : FatData} {cluster : Nat}

end FatData

end Emos.Boot
