import Bytecode.Constant.Pool
import Bytecode.Main
import Bytecode.Proofs.Assembly.Closures
import Bytecode.Proofs.Assembly.Settling
import Bytecode.Proofs.Assembly.StackSize
import Bytecode.Proofs.Composition.Names
import Bytecode.Proofs.Composition.Warnings
import Bytecode.Proofs.Conditions.Agreement
import Bytecode.Proofs.Graph.DepthPaths
import Bytecode.Proofs.Locals.Bound
import Bytecode.Proofs.Locals.Labelling
import Bytecode.Proofs.Lowering.Units
import Bytecode.Proofs.Listing.Faithful
import Bytecode.Proofs.Optimizer.Gaps
import Bytecode.Proofs.Optimizer.Partition
import Bytecode.Proofs.Scope.Capture
import Bytecode.Proofs.Scope.Order
import Bytecode.Proofs.Table.Locations
