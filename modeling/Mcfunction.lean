import Mcfunction.Files.Tree
import Mcfunction.Main
import Mcfunction.Proofs.Accounts
import Mcfunction.Proofs.Aliases
import Mcfunction.Proofs.Apart
import Mcfunction.Proofs.Barren
import Mcfunction.Proofs.Collisions
import Mcfunction.Proofs.Comments
import Mcfunction.Proofs.Consumed
import Mcfunction.Proofs.Decimals
import Mcfunction.Proofs.Extraction
import Mcfunction.Proofs.Faults
import Mcfunction.Proofs.Flush
import Mcfunction.Proofs.Levels
import Mcfunction.Proofs.Limits
import Mcfunction.Proofs.Loops
import Mcfunction.Proofs.Merging
import Mcfunction.Proofs.Pending
import Mcfunction.Proofs.Refusals
import Mcfunction.Proofs.Returns
import Mcfunction.Proofs.Schedule
import Mcfunction.Proofs.Stack
import Mcfunction.Proofs.Streams
import Mcfunction.Proofs.Unwrapped
