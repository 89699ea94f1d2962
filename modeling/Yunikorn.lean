import Yunikorn.Quantity
import Yunikorn.Float64
import Yunikorn.Resource
import Yunikorn.Equality
import Yunikorn.Algebra
import Yunikorn.Accounting
import Yunikorn.Compare
import Yunikorn.Admission
import Yunikorn.CompareShares
import Yunikorn.Ranking
import Yunikorn.FairShare
import Yunikorn.FitScore
import Yunikorn.Dominant
import Yunikorn.ComponentWise
import Yunikorn.Proto
import Yunikorn.Scaling
