import Selene.Proof.Publication
import Selene.Proof.CheckpointRetry
import Selene.Proof.MutatorTrace
import Selene.Proof.DeleteStatement
import Selene.Proof.CompositeIndex
import Selene.Proof.AllDistances
import Selene.Proof.CutStructure
import Selene.Proof.IntegerSum
import Selene.Proof.RecoverySuffix
import Selene.Proof.IndexExpression
import Selene.Proof.GroupingKeys
import Selene.Core.MergePatch
