import Jdftx.Core.Matrix3
import Jdftx.Core.ReduceLatticeVectors
import Jdftx.Core.Supercell.Lattice
import Jdftx.Core.ShearMinimal
import Jdftx.Core.GetSymmetries
import Jdftx.Core.Supercell.MeshClosure
import Jdftx.Core.WignerSeitz
import Jdftx.Core.CellMap
import Jdftx.Core.Supercell.Basis
import Jdftx.Core.Supercell.KBasis
import Jdftx.Core.Supercell.SuperMatrix
import Jdftx.Electronic.ElectronScattering
import Jdftx.Core.CellMap.SurfaceLoop
import Jdftx.Electronic.Matrix
import Jdftx.Electronic.Blas
import Jdftx.Electronic.TiledBlockMatrix
import Jdftx.Core.ManagedMemory
import Jdftx.Electronic.ColumnBundle
import Jdftx.Electronic.Checkpoint
import Jdftx.Electronic.BundleProduct
import Jdftx.Electronic.MatrixProduct
import Jdftx.Electronic.ExCorr
